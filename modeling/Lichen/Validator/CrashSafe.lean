/-
  Signing and locking through crashes.

  A vote is recorded before it is sent, and what is recorded is restored: the engine of the next
  process knows every vote the earlier ones have sent, and signs nothing against it.  A precommit
  for a block is also a lock, and the locks in the log climb: each is at a round not below those
  before it.  The last one recovered is therefore the strongest, and a prevote for another block
  needs a polka above it.

  The second half fails where a lock is released.  A polka locks the engine also on a block it has
  never received.  The precommit is then refused, because the block is not in the log — but at the
  end of the turn the loop writes the lock down all the same.  After a crash that lock is the last
  one, its block is missing, and startup drops it, and with it every lock before
  (`prevote_against_precommit`).  In runs in which the log has the block of every lock it records,
  and the round number never wraps, both halves hold (`crash_safe`).
-/
import Lichen.Validator.Restart

open Base
namespace Lichen
open List

/-! ## The loop's writes -/

/-- What carrying out `a` may add to the file. -/
structure Writes (height : UInt64) (a : ConsensusAction) (extra : List WalEntry) : Prop where
  at_height : ∀ x ∈ extra, x.At height
  votes : ∀ b ∈ votesAt height extra, b = a
  locks : ∀ x ∈ locksAt height extra, x ∈ locksOf [a]

namespace Writes

theorem nil (a : ConsensusAction) : Writes height a [] :=
  ⟨fun _ hx => absurd hx not_mem_nil, fun _ hx => absurd hx not_mem_nil,
    fun _ hx => absurd hx not_mem_nil⟩

/-- A block is neither a vote nor a lock. -/
theorem block (a : ConsensusAction) (h : UInt64) (r : UInt32) (b : Block) :
    Writes height a [.ProposalBlock h r b] :=
  ⟨fun x hx => by rw [mem_singleton.mp hx]; trivial, fun x hx => absurd hx not_mem_nil,
    fun x hx => absurd hx not_mem_nil⟩

theorem append (h : Writes height a extra)
    (h' : Writes height a extra') : Writes height a (extra ++ extra') := by
  refine ⟨?_, ?_, ?_⟩
  · grind [at_height]
  · grind [votesAt_append, votes]
  grind [locksAt_append, locks]

/-- A vote's record. -/
theorem record {a record} (hheight : record.height = height) (hvote : record.vote = some a)
    (hlock : ∀ x, WalEntry.lockAt height (.SignedVote record) = some x → x ∈ locksOf [a]) :
    Writes height a [.SignedVote record] ∧ a ∈ votesAt height [.SignedVote record] := by
  have hentry : WalEntry.vote height (.SignedVote record) = some a := (if_pos hheight).trans hvote
  refine ⟨⟨?_, ?_, ?_⟩, mem_filterMap.mpr ⟨_, mem_singleton_self _, hentry⟩⟩
  · intro x hx
    rw [mem_singleton.mp hx]
    exact hheight
  · intro b hb
    obtain ⟨entry, hmem, hb'⟩ := mem_filterMap.mp hb
    grind
  · intro x hx
    obtain ⟨entry, hmem, hx'⟩ := mem_filterMap.mp hx
    grind

theorem prevote (hheight : v.height = height) :
    Writes height (.BroadcastPrevote v) [.SignedVote v.record]
      ∧ .BroadcastPrevote v ∈ votesAt height [.SignedVote v.record] := by
  refine record hheight rfl fun x hx => ?_
  grind [WalEntry.lockAt, Prevote.record]

theorem precommit (hheight : v.height = height) :
    Writes height (.BroadcastPrecommit v) [.SignedVote v.record]
      ∧ .BroadcastPrecommit v ∈ votesAt height [.SignedVote v.record] := by
  refine record hheight rfl fun x hx => ?_
  rw [show WalEntry.lockAt height (.SignedVote v.record) = v.blockHash.map fun bh => (v.round, bh)
    from if_pos ⟨hheight, rfl⟩] at hx
  grind [locksOf]

/-- A precommit's lock record. -/
theorem lock (hheight : v.height = height) (hbh : v.blockHash = some bh) :
    Writes height (.BroadcastPrecommit v) [.Locked v.height v.round bh] := by
  refine ⟨?_, fun b hb => absurd hb not_mem_nil, ?_⟩
  · intro x hx
    rw [mem_singleton.mp hx]
    exact hheight
  · intro x hx
    obtain ⟨entry, hmem, hx'⟩ := mem_filterMap.mp hx
    rw [mem_singleton.mp hmem, show WalEntry.lockAt height (.Locked v.height v.round bh) = _
      from if_pos hheight] at hx'
    cases hx'
    exact mem_locksOf (mem_singleton_self _) hbh

end Writes

/-- How an action was carried out: what it may write was written, and a vote that got to the
    broadcast is in the file. -/
def Executed (height : UInt64) (a : ConsensusAction) (disk : List WalEntry)
    (result : Bool × Journal) :
    Prop :=
  ∃ extra, result.2.disk = disk ++ extra ∧ Writes height a extra
    ∧ (result.1 = true → a.isVote = true → a ∈ votesAt height extra)

variable {a : ConsensusAction}

theorem Executed.nothing
    (h : j.disk = disk) : Executed height a disk (false, j) :=
  ⟨[], h.trans (append_nil _).symm, .nil a, fun hout => nomatch hout⟩

namespace Journal

/-- A write leaves its entry in the file, or nothing; `Ok` only with the entry. -/
theorem appendResult_disk (j : Journal) (entry : WalEntry) (write : Write) :
    (j.appendResult entry write).2.disk = j.disk ++ [entry]
      ∨ (j.appendResult entry write).2.disk = j.disk
        ∧ ∃ e, (j.appendResult entry write).1 = .error e := by
  cases write with
  | ok => exact .inl rfl
  | failed kept message =>
    cases kept with
    | true => exact .inl rfl
    | false => exact .inr ⟨rfl, message, rfl⟩

theorem logSignedVote_disk (j : Journal) (record : SignedVoteRecord) (write : Write) :
    (j.logSignedVote record write).2.disk = j.disk ++ [.SignedVote record]
      ∨ (j.logSignedVote record write).2.disk = j.disk
        ∧ ∃ e, (j.logSignedVote record write).1 = .error e := by
  unfold logSignedVote
  split
  · rename_i e he
    exact .inr ⟨rfl, e, rfl⟩
  · exact j.appendResult_disk _ write

variable [Crypto]

theorem logProposalBlockResult_disk (j : Journal) (height : UInt64) (round : UInt32)
    (block : Block) (write : Write) :
    (j.logProposalBlockResult height round block write).2.disk
        = j.disk ++ [.ProposalBlock height round block]
      ∨ (j.logProposalBlockResult height round block write).2.disk = j.disk := by
  grind [logProposalBlockResult, ConsensusWal.proposalBlockEntry, appendResult_disk]

variable {height : UInt64} {own : Pubkey}

section
variable (j : Journal) (write write' : Write)

theorem execute_proposal (p : Proposal) : Executed height (.BroadcastProposal p) j.disk
      (j.executeConsensusActions own write write' (.BroadcastProposal p)) := by
  have hwrote : ∀ (out : Bool) (j' : Journal),
      (j'.disk = j.disk ++ [.ProposalBlock p.height p.round p.block] ∨ j'.disk = j.disk) →
      Executed height (.BroadcastProposal p) j.disk (out, j') := by
    rintro out j' (hdisk | hdisk)
    · exact ⟨_, hdisk, .block _ _ _ _, fun _ hvote => nomatch hvote⟩
    · exact ⟨[], hdisk.trans (append_nil _).symm, .nil _, fun _ hvote => nomatch hvote⟩
  unfold executeConsensusActions
  dsimp only
  split
  · have hdisk := j.logProposalBlockResult_disk p.height p.round p.block write
    grind
  · exact hwrote true j (.inr rfl)

theorem execute_prevote (hown : v.validator = own) (hheight : v.height = height) :
    Executed height (.BroadcastPrevote v) j.disk
      (j.executeConsensusActions own write write' (.BroadcastPrevote v)) := by
  obtain ⟨hwrites, hmem⟩ := Writes.prevote hheight
  have hdisk := j.logSignedVote_disk v.record write
  unfold executeConsensusActions
  dsimp only
  rw [if_pos hown]
  split
  · exact .nothing rfl
  split
  · rename_i j' hj
    rw [hj] at hdisk
    rcases hdisk with hdisk | ⟨-, e, he⟩
    · exact ⟨_, hdisk, hwrites, fun _ _ => hmem⟩
    · exact nomatch he
  · rename_i hj
    rw [hj] at hdisk
    rcases hdisk with hdisk | ⟨hdisk, -⟩
    · exact ⟨_, hdisk, hwrites, fun _ _ => hmem⟩
    · exact .nothing hdisk

/-- An own precommit is on disk before it is sent. -/
theorem execute_precommit (hown : v.validator = own) (hheight : v.height = height) :
    Executed height (.BroadcastPrecommit v) j.disk
      (j.executeConsensusActions own write write' (.BroadcastPrecommit v)) := by
  obtain ⟨hwrites, hmem⟩ := Writes.precommit hheight
  have hdisk := j.logSignedVote_disk v.record write
  unfold executeConsensusActions
  dsimp only
  rw [if_pos hown]
  split
  · exact .nothing rfl
  split
  · rename_i j' hj
    rw [hj] at hdisk
    rcases hdisk with hdisk | ⟨hdisk, -⟩
    · exact ⟨_, hdisk, hwrites, fun _ _ => hmem⟩
    · exact .nothing hdisk
  rename_i j' hj
  rw [hj] at hdisk
  rcases hdisk with hdisk | ⟨-, e, he⟩
  · split
    · exact ⟨_, hdisk, hwrites, fun _ _ => hmem⟩
    rename_i bh hbh
    -- with the lock's record behind it, or without
    have hlast := j'.appendResult_disk (.Locked v.height v.round bh) write'
    rw [hdisk, append_assoc] at hlast
    have hwrote : ∀ (out : Bool) (j'' : Journal),
        (j''.disk = j.disk ++ ([.SignedVote v.record] ++ [.Locked v.height v.round bh])
          ∨ j''.disk = j.disk ++ [.SignedVote v.record]) →
        Executed height (.BroadcastPrecommit v) j.disk (out, j'') := by
      rintro out j'' (hdisk'' | hdisk'')
      · refine ⟨_, hdisk'', hwrites.append (.lock hheight hbh), fun _ _ => ?_⟩
        rw [votesAt_append]
        exact mem_append_left _ hmem
      · exact ⟨_, hdisk'', hwrites, fun _ _ => hmem⟩
    split
    · rename_i j'' hj''
      rw [show j'.appendResult _ write' = _ from hj''] at hlast
      exact hwrote true j'' (hlast.imp_right And.left)
    · rename_i j'' hj''
      rw [show j'.appendResult _ write' = _ from hj''] at hlast
      exact hwrote false j'' (hlast.imp_right And.left)
  · exact nomatch he

/-- **What carrying out one action does.** -/
theorem executeConsensusActions_spec
    (hpv : ∀ v, a = .BroadcastPrevote v → v.validator = own ∧ v.height = height)
    (hpc : ∀ v, a = .BroadcastPrecommit v → v.validator = own ∧ v.height = height) :
    Executed height a j.disk (j.executeConsensusActions own write write' a) := by
  cases a with
  | BroadcastProposal p => exact j.execute_proposal write write' p
  | BroadcastPrevote v =>
    grind [execute_prevote]
  | BroadcastPrecommit v =>
    grind [execute_precommit]
  | _ => exact .nothing rfl

end
end Journal

/-! ## Every run -/

section
variable [Crypto]

namespace Recorded

variable {c : NodeConfig} {entries : List WalEntry} {s s' : Node}

section
variable (h : Recorded c entries s)
include h

/-- The node after more was written, with the engine as it is. -/
theorem wrote (hengine : s'.engine = s.engine)
    (hheard : s'.heard = s.heard) (hdisk : s'.journal.disk = s.journal.disk ++ extra)
    (hat : ∀ x ∈ extra, x.At c.height)
    (hsent : ∀ a ∈ s'.sent, a.isVote = true → a ∈ votesAt c.height (entries ++ extra))
    (hvotes : ∀ a ∈ votesAt c.height extra, a ∈ s.sent ++ s.pending)
    (hclimbs : Climbs (allLocks c.height (entries ++ extra) s'.pending s.engine))
    (hlocks : ∀ x ∈ locksAt c.height extra ++ locksOf s'.pending,
      x ∈ allLocks c.height entries s.pending s.engine)
    (hsub : (s'.sent ++ s'.pending).Sublist (s.sent ++ s.pending)) :
    Recorded c (entries ++ extra) s' := by
  refine ⟨?_, ?_, hsent, ?_⟩
  · rw [hdisk, h.disk, append_assoc]
  · intro x hx
    rcases mem_append.mp hx with hx | hx
    · exact h.at_height x hx
    · exact hat x hx
  · rw [hengine, hheard]
    refine h.upright.moved ?_ hclimbs ?_ hsub
    · intro a ha
      rw [votesAt_append] at ha
      rcases mem_append.mp ha with ha | ha
      · exact mem_append_left _ ha
      · exact mem_append_right _ (hvotes a ha)
    · intro x hx
      rw [allLocks, locksAt_append, append_assoc] at hx
      rcases mem_append.mp hx with hx | hx
      · exact mem_append_left _ hx
      rcases mem_append.mp hx with hx | hx
      · exact hlocks x (mem_append_left _ hx)
      rcases mem_append.mp hx with hx | hx
      · exact hlocks x (mem_append_right _ hx)
      · exact mem_append_right _ (mem_append_right _ hx)

/-- Logging a block touches neither votes nor locks. -/
theorem logProposal (p : Proposal) (write : Write) : ∃ entries', Recorded c entries'
      { s with journal := (s.journal.logProposalBlockResult p.height p.round p.block write).2 } := by
  rcases s.journal.logProposalBlockResult_disk p.height p.round p.block write with hdisk | hdisk
  · have hvotes : votesAt c.height (entries ++ [.ProposalBlock p.height p.round p.block])
        = votesAt c.height entries := by rw [votesAt_append]; exact append_nil _
    have hlocks : locksAt c.height (entries ++ [.ProposalBlock p.height p.round p.block])
        = locksAt c.height entries := by rw [locksAt_append]; exact append_nil _
    refine ⟨_, h.wrote rfl rfl hdisk ?_ (hvotes ▸ h.sent) (fun a ha => absurd ha not_mem_nil)
      ?_ ?_ (List.Sublist.refl _)⟩
    · intro x hx
      rw [mem_singleton.mp hx]
      trivial
    · rw [allLocks, hlocks]
      exact h.upright.climbs
    · intro x hx
      exact mem_append_right _ (mem_append_left _ hx)
  · exact ⟨entries, hdisk.trans h.disk, h.at_height, h.sent, h.upright⟩

/-- Carrying out one action. -/
theorem execute (hpending : s.pending = a :: rest) (write write' : Write) (sends : Bool) :
    ∃ entries', Recorded c entries'
      { s with
        journal := (s.journal.executeConsensusActions c.pubkey write write' a).2
        pending := rest
        sent := if (s.journal.executeConsensusActions c.pubkey write write' a).1 && sends
          then s.sent ++ [a] else s.sent } := by
  have hu := h.upright
  rw [hpending] at hu
  have hin : a ∈ votesAt c.height entries ++ (s.sent ++ a :: rest) :=
    mem_append_right _ (mem_append_right _ mem_cons_self)
  have hpv : ∀ v, a = .BroadcastPrevote v → v.validator = c.pubkey ∧ v.height = c.height := by
    rintro v rfl
    exact ⟨(hu.votes.validPrevotes v hin).1, hu.prevoteHeight v (mem_append_right _ mem_cons_self)⟩
  have hpc : ∀ v, a = .BroadcastPrecommit v → v.validator = c.pubkey ∧ v.height = c.height := by
    rintro v rfl
    exact ⟨(hu.votes.validPrecommits v hin).1,
      hu.precommitHeight v (mem_append_right _ mem_cons_self)⟩
  obtain ⟨extra, hdisk, hwrites, hout⟩ :=
    s.journal.executeConsensusActions_spec write write' hpv hpc
  have hcons : locksOf (a :: rest) = locksOf [a] ++ locksOf rest := locksOf_append [a] rest
  refine ⟨_, h.wrote rfl rfl hdisk hwrites.at_height ?_ ?_ ?_ ?_ ?_⟩
  · intro b hb hvote
    rw [votesAt_append]
    have hold : b ∈ s.sent → b ∈ votesAt c.height entries ++ votesAt c.height extra :=
      fun hb => mem_append_left _ (h.sent b hb hvote)
    split at hb
    · rename_i hsent
      rcases mem_append.mp hb with hb | hb
      · exact hold hb
      · obtain rfl := mem_singleton.mp hb
        exact mem_append_right _ (hout (Bool.and_eq_true_iff.mp hsent).1 hvote)
    · exact hold hb
  · intro b hb
    rw [hwrites.votes b hb, hpending]
    exact mem_append_right _ mem_cons_self
  · -- the precommit's lock stays, once for each time it was written
    have hclimbs := hu.climbs
    rw [allLocks, hcons, append_assoc] at hclimbs
    rw [allLocks, locksAt_append, append_assoc]
    have hlocks := hwrites.locks
    rcases hlock : locksOf [a] with _ | ⟨x, _ | ⟨y, l⟩⟩
    · rw [hlock] at hlocks hclimbs
      rw [eq_nil_iff_forall_not_mem.mpr fun x hx => not_mem_nil (hlocks x hx)]
      exact hclimbs
    · rw [hlock] at hlocks hclimbs
      exact hclimbs.replace fun y hy => mem_singleton.mp (hlocks y hy)
    · have hlen : (locksOf [a]).length ≤ 1 := length_filterMap_le _ _
      rw [hlock] at hlen
      simp at hlen
  · intro x hx
    rw [allLocks, hpending, hcons]
    refine mem_append_right _ (mem_append_left _ ?_)
    rcases mem_append.mp hx with hx | hx
    · exact mem_append_left _ (hwrites.locks x hx)
    · exact mem_append_right _ hx
  · rw [hpending]
    split
    · rw [append_assoc]
      exact List.Sublist.refl _
    · exact (sublist_cons_self a rest).append_left _

/-- The lock may be written at the end of a turn. -/
theorem persisted (hpending : s.pending = []) (hlock : s.engine.lockedState = some lock) (hdisk :
      s'.journal.disk = s.journal.disk ++ extra)
    (hextra : ∀ x ∈ extra, x = .Locked s.engine.height lock.1 lock.2)
    (hengine : s'.engine = s.engine) (hsent : s'.sent = s.sent) (hheard : s'.heard = s.heard)
    (hpending' : s'.pending = []) : Recorded c (entries ++ extra) s' := by
  have hheight := h.upright.height
  have hlocks : ∀ x ∈ locksAt c.height extra, x = lock := by
    intro x hx
    obtain ⟨entry, hentry, hat⟩ := mem_filterMap.mp hx
    rw [hextra entry hentry, show WalEntry.lockAt c.height
      (.Locked s.engine.height lock.1 lock.2) = _ from if_pos hheight] at hat
    exact (Option.some.inj hat).symm
  have hlast : allLocks c.height entries s.pending s.engine = locksAt c.height entries ++ [lock] := by
    rw [allLocks, hpending, hlock]
    rfl
  refine h.wrote hengine hheard hdisk ?_ ?_ ?_ ?_ ?_ ?_
  · intro x hx
    rw [hextra x hx]
    exact hheight
  · grind [votesAt_append, sent]
  · intro a ha
    obtain ⟨entry, hentry, hvote⟩ := mem_filterMap.mp ha
    rw [hextra entry hentry] at hvote
    cases hvote
  · have hclimbs := h.upright.climbs
    rw [hlast] at hclimbs
    rw [allLocks, locksAt_append, hpending', hlock, append_assoc]
    have hall : ∀ y ∈ locksAt c.height extra ++ [lock], y = lock := by
      intro y hy
      rcases mem_append.mp hy with hy | hy
      · exact hlocks y hy
      · exact mem_singleton.mp hy
    have hreplaced := hclimbs.replace hall
    rw [append_nil] at hreplaced
    exact hreplaced
  · intro x hx
    rw [hpending'] at hx
    rcases mem_append.mp hx with hx | hx
    · grind
    · exact absurd hx not_mem_nil
  · rw [hsent, hpending, hpending']

/-- A crash, and the next process. -/
theorem crash (hsafe : c.Safe (c.boot s.journal.disk s.sent s.heard)) :
    Recorded c (entries ++ [.HeightStarted c.height]) (c.boot s.journal.disk s.sent s.heard) := by
  -- the record of the start is no lock and no block
  have hblocks : c.LocksHaveBlocks s.journal.disk := by
    intro x hx
    have hbooted : x ∈ locksAt c.height (s.journal.disk ++ [.HeightStarted c.height]) := by
      rw [locksAt_append]
      exact mem_append_left _ hx
    have hany := hsafe.blocks x hbooted
    rw [show (c.boot s.journal.disk s.sent s.heard).journal.disk
      = s.journal.disk ++ [.HeightStarted c.height] from rfl, any_append] at hany
    rcases Bool.or_eq_true_iff.mp hany with hany | hany
    · exact hany
    · exact nomatch hany
  rw [h.disk] at hblocks ⊢
  exact h.durable.boot hblocks

/-- **One step of the loop.** -/
theorem next (hunforged : s.Unforged c input)
    (hnext : s.next c input = some s') (hsafe : c.Safe s') :
    ∃ entries', Recorded c entries' s' := by
  cases input with
  | logProposal p write =>
    unfold Node.next at hnext
    dsimp only at hnext
    split at hnext
    · cases hnext
      exact h.logProposal p write
    · exact nomatch hnext
  | call clock prevoteOrder precommitOrder op =>
    unfold Node.next at hnext
    dsimp only at hnext
    split at hnext
    · rename_i hready
      cases hnext
      have hempty : s.pending = [] := isEmpty_iff.mp (Bool.and_eq_true_iff.mp hready).1
      have hu := h.upright
      rw [hempty] at hu
      refine ⟨entries, h.disk, h.at_height, h.sent, ?_⟩
      refine hu.call (fun v hv => h.sent _ hv rfl) ?_ ?_ hsafe.rounds
      · rintro v rfl
        exact hunforged
      · rintro v rfl
        exact hunforged
    · exact nomatch hnext
  | execute write write' sends =>
    unfold Node.next at hnext
    dsimp only at hnext
    split at hnext
    · exact nomatch hnext
    · rename_i hpending
      cases hnext
      exact h.execute hpending write write' sends
  | persistLock write =>
    unfold Node.next at hnext
    dsimp only at hnext
    split at hnext
    · rename_i hready
      have hempty : s.pending = [] := isEmpty_iff.mp hready
      split at hnext
      · grind
      rename_i lock hlock
      split at hnext
      · grind
      have hdisk := s.journal.appendResult_disk (.Locked s.engine.height lock.1 lock.2) write
      have hone : ∀ x ∈ [WalEntry.Locked s.engine.height lock.1 lock.2],
          x = .Locked s.engine.height lock.1 lock.2 := fun x hx => mem_singleton.mp hx
      split at hnext
      · rename_i journal hjournal
        cases hnext
        rw [show s.journal.appendResult _ write = _ from hjournal] at hdisk
        rcases hdisk with hdisk | ⟨-, e, he⟩
        · exact ⟨_, h.persisted hempty hlock hdisk hone rfl rfl rfl hempty⟩
        · exact nomatch he
      · rename_i journal hjournal
        cases hnext
        rw [show s.journal.appendResult _ write = _ from hjournal] at hdisk
        -- the process exits: as if it had crashed after the write
        rcases hdisk with hdisk | ⟨hdisk, -⟩
        · have hwrote : Recorded c _ { s with journal := journal } :=
            h.persisted hempty hlock hdisk hone rfl rfl rfl hempty
          exact ⟨_, hwrote.crash hsafe⟩
        · have hsame : journal.disk = s.journal.disk := hdisk
          rw [hsame] at hsafe ⊢
          exact ⟨_, h.crash hsafe⟩
    · exact nomatch hnext
  | crash =>
    cases hnext
    exact ⟨_, h.crash hsafe⟩

end
end Recorded

theorem NodeConfig.Run.recorded (h : c.Run c.Safe s) : ∃ entries, Recorded c entries s := by
  induction h with
  | start hsafe =>
    have hblocks : c.LocksHaveBlocks (c.log ++ []) := by
      intro x hx
      rw [NodeConfig.locksAt_log] at hx
      exact absurd hx not_mem_nil
    have hboot := (Durable.nil c).boot hblocks
    rw [append_nil] at hboot
    exact ⟨_, hboot⟩
  | next input _ hunforged hnext hsafe ih =>
    obtain ⟨entries, hrecorded⟩ := ih
    exact hrecorded.next hunforged hnext hsafe

/-- **Crash-safe signing and locking.**  In every run through safe states, whatever crashes it
    has: the validator broadcasts one prevote and one precommit a round; and if it broadcast a
    precommit for `V` and later a prevote for another block `W` at a later round, then validators
    with 2/3 of the stake have prevoted `W` at one round above the precommit. -/
theorem crash_safe {c : NodeConfig} {s : Node} (h : c.Run c.Safe s) :
    (∀ v w, .BroadcastPrevote v ∈ s.sent → .BroadcastPrevote w ∈ s.sent → v.height = w.height →
        v.round = w.round → v.blockHash = w.blockHash)
      ∧ (∀ v w, .BroadcastPrecommit v ∈ s.sent → .BroadcastPrecommit w ∈ s.sent →
        v.height = w.height → v.round = w.round → v.blockHash = w.blockHash)
      ∧ ∀ v w V W, [.BroadcastPrecommit v, .BroadcastPrevote w].Sublist s.sent →
        v.blockHash = some V → w.blockHash = some W → W ≠ V → v.round < w.round →
        ∃ round, v.round < round ∧ c.Polka s.heard round W := by
  obtain ⟨entries, hrecorded⟩ := h.recorded
  have hu := hrecorded.upright
  have hsent : ∀ a ∈ s.sent, a ∈ votesAt c.height entries ++ (s.sent ++ s.pending) :=
    fun a ha => List.mem_append_right _ (List.mem_append_left _ ha)
  refine ⟨?_, ?_, ?_⟩
  · intro v w hv hw hheight hround
    exact hu.votes.prevotes.single v.ballot w.ballot ⟨v, hsent _ hv, rfl⟩ ⟨w, hsent _ hw, rfl⟩
      hheight hround
  · intro v w hv hw hheight hround
    exact hu.votes.precommits.single v.ballot w.ballot ⟨v, hsent _ hv, rfl⟩ ⟨w, hsent _ hw, rfl⟩
      hheight hround
  · intro v w V W hboth hV hW hne hlt
    have hpair := hu.justified.sublist (hboth.trans (List.sublist_append_left _ _))
    exact (List.pairwise_cons.mp hpair).1 _ (List.mem_singleton_self _) v w V W rfl rfl hV hW hne hlt

/-! ## Scripted runs -/

/-- No vote under the validator's own key is handed in. -/
def Input.foreign (own : Pubkey) : Input → Bool
  | .call _ _ _ (.onPrevote v) => v.validator ≠ own
  | .call _ _ _ (.onPrecommit v) => v.validator ≠ own
  | _ => true

theorem Input.unforged_of_foreign {s : Node} {input : Input}
    (h : input.foreign c.pubkey = true) : s.Unforged c input := by
  cases input with
  | call clock prevoteOrder precommitOrder op =>
    cases op with
    | onPrevote v => exact fun hown => absurd hown (of_decide_eq_true h)
    | onPrecommit v => exact fun hown => absurd hown (of_decide_eq_true h)
    | _ => trivial
  | _ => trivial

namespace NodeConfig

variable {c : NodeConfig}

/-- The state after a script whose states all pass the check. -/
def play (c : NodeConfig) (check : Node → Bool) : List Input → Node → Option Node
  | [], s => some s
  | input :: script, s =>
    match s.next c input with
    | none => none
    | some s' => if input.foreign c.pubkey && check s' then c.play check script s' else none

variable {ok : Node → Prop}

theorem Run.play (hok : ∀ s, check s = true → ok s)
    : ∀ {s s' : Node}, c.Run ok s → c.play check script s = some s' → c.Run ok s' := by
  induction script with
  | nil =>
    simp [NodeConfig.play]
  | cons input script ih =>
    intro s s' h hplay
    unfold NodeConfig.play at hplay
    split at hplay
    · exact nomatch hplay
    rename_i s₁ hnext
    split at hplay
    · rename_i hchecks
      obtain ⟨hforeign, hcheck⟩ := Bool.and_eq_true_iff.mp hchecks
      exact ih (h.next input (Input.unforged_of_foreign hforeign) hnext (hok s₁ hcheck)) hplay
    · exact nomatch hplay

theorem exists_run_of_play
    (hok : ∀ s, check s = true → ok s) (c : NodeConfig) (script : List Input) (p : Node → Bool)
    (hstart : check c.start = true) (h : (c.play check script c.start).any p = true) :
    ∃ s, c.Run ok s ∧ p s = true := by
  cases hplay : c.play check script c.start with
  | none => rw [hplay] at h; exact nomatch h
  | some s =>
    rw [hplay] at h
    exact ⟨s, .play hok (.start (hok _ hstart)) hplay, h⟩

/-- `Safe`, as a check. -/
def safe (c : NodeConfig) (s : Node) : Bool :=
  (locksAt c.height s.journal.disk).all (fun x => s.journal.disk.any (WalEntry.holdsBlock c.height x.2))
    && decide ((MAX_ROUND, 0) ∉ s.engine.advances)

theorem safe_of_check (s : Node) (h : c.safe s = true) : c.Safe s := by
  obtain ⟨hblocks, hrounds⟩ := Bool.and_eq_true_iff.mp h
  exact ⟨all_eq_true.mp hblocks, of_decide_eq_true hrounds⟩

/-- A polka at any round needs 2/3 among everybody heard prevoting the block. -/
theorem Polka.any_round {round} (h : c.Polka heard round blockHash) :
    c.snapshot.totalEligibleStake * 2 ≤ weight (powerIn c.snapshot.eligiblePower)
        ((heard.filter fun v => v.blockHash = some blockHash).map Prevote.validator).dedup * 3 := by
  have hsub : c.prevoters heard round blockHash
      ⊆ ((heard.filter fun v => v.blockHash = some blockHash).map Prevote.validator).dedup := by
    intro k hk
    obtain ⟨v, hv, rfl, hcounts⟩ := mem_prevoters.mp hk
    obtain ⟨-, -, hhash⟩ := of_decide_eq_true (Bool.and_eq_true_iff.mp hcounts).1
    exact mem_dedup.mpr (mem_map.mpr ⟨v, mem_filter.mpr ⟨hv, decide_eq_true hhash⟩, rfl⟩)
  have hnodup : (c.prevoters heard round blockHash).Nodup := nodup_dedup _
  have hle := weight_le_of_subset (powerIn c.snapshot.eligiblePower) hnodup hsub
  unfold Polka at h
  omega

end NodeConfig

end

/-- A precommit for `V` at `r`, and later a prevote for `W` at `r'`. -/
def precommitThenPrevote (V W : Hash) (r r' : UInt32) : List ConsensusAction → Bool
  | [] => false
  | a :: log =>
    (match a with
      | .BroadcastPrecommit v => decide (v.round = r ∧ v.blockHash = some V) && log.any fun
        | .BroadcastPrevote w => decide (w.round = r' ∧ w.blockHash = some W)
        | _ => false
      | _ => false)
    || precommitThenPrevote V W r r' log

theorem exists_of_precommitThenPrevote (h : precommitThenPrevote V W r r' log = true) :
    ∃ v w, [.BroadcastPrecommit v, .BroadcastPrevote w].Sublist log ∧ v.round = r
      ∧ v.blockHash = some V ∧ w.round = r' ∧ w.blockHash = some W := by
  induction log with
  | nil => exact nomatch h
  | cons a log ih =>
    rcases Bool.or_eq_true_iff.mp h with hhere | hlater
    · cases a with
      | BroadcastPrecommit v =>
        obtain ⟨hv, hany⟩ := Bool.and_eq_true_iff.mp hhere
        obtain ⟨hround, hhash⟩ := of_decide_eq_true hv
        obtain ⟨b, hb, hw⟩ := any_eq_true.mp hany
        cases b with
        | BroadcastPrevote w =>
          obtain ⟨hround', hhash'⟩ := of_decide_eq_true hw
          exact ⟨v, w, (singleton_sublist.mpr hb).cons_cons _, hround, hhash, hround', hhash'⟩
        | _ => exact nomatch hw
      | _ => exact nomatch hhere
    · obtain ⟨v, w, hsub, hrest⟩ := ih hlater
      exact ⟨v, w, hsub.cons _, hrest⟩

section
variable [Crypto]

/-- The first of three validators of equal stake, at height 1, with an empty log. -/
def trioConfig : NodeConfig where
  keypair := ⟨1⟩
  chainId := trioSetting.signingChainId
  minValidatorStake := trioSetting.minValidatorStake
  timeouts := .default
  validatorSet := trioSetting.validatorSet
  stakePool := trioSetting.stakePool
  height := trioSetting.height
  log := []
  earlier := nofun

/-- A call at time 0, `n` actions carried out, and the lock persisted. -/
def turn (op : Op) (n : Nat) : List Input :=
  .call (fun _ => 0) default default op :: List.replicate n (.execute .ok .ok true)
    ++ [.persistLock .ok]

/-- The second's block is proposed, prevoted, locked and precommitted at round 0. -/
def precommitted : List Input :=
  let S := trioSetting
  let p := S.proposalBy ⟨2⟩ 0 (S.blockBy ⟨2⟩ ⟨1⟩)
  .logProposal p .ok :: turn (.onProposal p) 1
    ++ turn (.onPrevote (S.prevoteBy ⟨2⟩ 0 (some p.block.hash))) 1 ++ turn (.onTimeout .Precommit 0) 1

/-- At round 1 the others prevote a block the first has not received; it crashes, and at round 2,
    which it leads, it proposes and prevotes a block of its own. -/
def lockWithoutBlock : List Input :=
  let S := trioSetting
  let hash := (S.blockBy ⟨3⟩ ⟨2⟩).hash
  precommitted ++ turn (.onTimeout .Propose 1) 1
    ++ turn (.onPrevote (S.prevoteBy ⟨2⟩ 1 (some hash))) 1
    ++ turn (.onPrevote (S.prevoteBy ⟨3⟩ 1 (some hash))) 1 ++ [.crash]
    ++ turn (.createProposal (S.blockBy ⟨1⟩ ⟨3⟩)) 2

/-- At round 1 the third's block is proposed, and gets a polka; the first locks on it, crashes, and
    at round 2 proposes and prevotes that block again. -/
def lockWithBlock : List Input :=
  let S := trioSetting
  let p := S.proposalBy ⟨3⟩ 1 (S.blockBy ⟨3⟩ ⟨2⟩)
  precommitted ++ .logProposal p .ok :: turn (.onProposal p) 1
    ++ turn (.onPrevote (S.prevoteBy ⟨2⟩ 1 (some p.block.hash))) 1
    ++ turn (.onPrevote (S.prevoteBy ⟨3⟩ 1 (some p.block.hash))) 1 ++ [.crash]
    ++ turn (.createProposal (S.blockBy ⟨1⟩ ⟨3⟩)) 2

end

/-- After the crash the first is not locked any more: having precommitted the second's block at
    round 0, it prevotes its own at round 2, and no round has a polka for that. -/
theorem prevote_against_precommit : ∃ (_ : Crypto) (c : NodeConfig) (s : Node) (v : Precommit)
    (w : Prevote) (V W : Hash), c.Run (fun _ => True) s
      ∧ [.BroadcastPrecommit v, .BroadcastPrevote w].Sublist s.sent ∧ v.blockHash = some V
      ∧ w.blockHash = some W ∧ W ≠ V ∧ v.round < w.round
      ∧ ¬ ∃ round, v.round < round ∧ c.Polka s.heard round W := by
  let _ : Crypto := Crypto.plain
  let V := (trioSetting.blockBy ⟨2⟩ ⟨1⟩).hash
  let W := (trioSetting.blockBy ⟨1⟩ ⟨3⟩).hash
  have hok : ∀ s : Node, (fun _ => true : Node → Bool) s = true → (fun _ => True : Node → Prop) s :=
    fun _ _ => trivial
  obtain ⟨s, hrun, hp⟩ := NodeConfig.exists_run_of_play hok trioConfig lockWithoutBlock
    (fun s => precommitThenPrevote V W 0 2 s.sent
      && decide (weight (powerIn trioConfig.snapshot.eligiblePower)
        ((s.heard.filter fun v => v.blockHash = some W).map Prevote.validator).dedup * 3
          < trioConfig.snapshot.totalEligibleStake * 2)) rfl (by decide +kernel)
  obtain ⟨hvotes, hfew⟩ := Bool.and_eq_true_iff.mp hp
  obtain ⟨v, w, hsub, hv, hV, hw, hW⟩ := exists_of_precommitThenPrevote hvotes
  refine ⟨Crypto.plain, trioConfig, s, v, w, V, W, hrun, hsub, hV, hW, by decide +kernel, ?_, ?_⟩
  · rw [hv, hw]
    decide
  · rintro ⟨round, -, hpolka⟩
    have hmany := hpolka.any_round
    have hless := of_decide_eq_true hfew
    omega

/-- The same with the block in the log: the lock survives the crash, and what is prevoted against
    the first precommit has a polka above it. -/
theorem crash_safe_lockWithBlock : ∃ (_ : Crypto) (s : Node) (v : Precommit) (w : Prevote),
    trioConfig.Run trioConfig.Safe s ∧ [.BroadcastPrecommit v, .BroadcastPrevote w].Sublist s.sent
      ∧ v.round = 0 ∧ w.round = 2 ∧ w.blockHash ≠ v.blockHash
      ∧ ∃ W round, w.blockHash = some W ∧ v.round < round
        ∧ trioConfig.Polka s.heard round W := by
  let _ : Crypto := Crypto.plain
  let V := (trioSetting.blockBy ⟨2⟩ ⟨1⟩).hash
  let W := (trioSetting.blockBy ⟨3⟩ ⟨2⟩).hash
  have hne : W ≠ V := by decide +kernel
  obtain ⟨s, hrun, hvotes⟩ := NodeConfig.exists_run_of_play
    (fun s => NodeConfig.safe_of_check (c := trioConfig) s) trioConfig lockWithBlock
    (fun s => precommitThenPrevote V W 0 2 s.sent) (by decide +kernel)
    (by decide +kernel)
  obtain ⟨v, w, hsub, hv, hV, hw, hW⟩ := exists_of_precommitThenPrevote hvotes
  have hlt : v.round < w.round := by
    rw [hv, hw]
    decide
  obtain ⟨round, hround, hpolka⟩ := (crash_safe hrun).2.2 v w V W hsub hV hW hne hlt
  refine ⟨Crypto.plain, s, v, w, hrun, hsub, hv, hw, ?_, W, round, hW, hround, hpolka⟩
  rw [hV, hW]
  exact fun heq => hne (Option.some.inj heq)

end Lichen
