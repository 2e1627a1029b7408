/-
  Vote tallies: the engine keeps, for each vote type, the voters per (round, hash) bucket, the
  cached power per bucket and per round, and who has been seen voting what.  Five code paths write
  these maps.

  `Distinct` says the buckets are what `seen` says, each voter in one bucket of a round and once in
  it, and that the engine's own key is seen exactly where it signed.  `Counted` says the two caches
  are the sums of the snapshot's powers over the voters.  Both are kept by counting a vote of a
  validator not seen before.

  The catch is the engine's own key: a vote under it is counted when it is signed (`do_prevote`,
  `do_precommit`) and, if it arrives from outside at a round the engine has not signed yet, once
  more when it is received.  So the result is for runs in which own votes only come back for rounds
  that are signed or restored.
-/
import Lichen.Validator.Events

open Base HashMap
namespace Lichen
open VoteTally ConsensusEngine
namespace VoteTally

/-! ## The invariants of a tally -/

/-- Everybody is in at most one bucket of a round, and once in it. -/
structure Distinct (t : VoteTally V) : Prop where
  nodup : ∀ key, (t.bucket key).Nodup
  mem_bucket : ∀ r h v, v ∈ t.bucket (r, h) ↔ t.seen.get (r, v) = some h

/-- The own key is seen exactly where it signed. -/
def OwnSeen (own : Pubkey) (t : VoteTally V) : Prop :=
  ∀ r, t.seen.get (r, own) = t.signedRounds.get r

/-- The validators seen voting at `r`, each once. -/
def voters (t : VoteTally V) (r : UInt32) : List Pubkey :=
  (t.seen.keys.filter fun k => k.1 == r).map Prod.snd

/-- The caches hold the powers of the voters. -/
structure Counted (snap : ConsensusPowerSnapshot) (t : VoteTally V) : Prop where
  power : ∀ key, (t.power.get key).getD 0 = ((t.bucket key).map (powerIn snap.eligiblePower)).sum
  any : ∀ r, (t.anyPower.get r).getD 0 = ((t.voters r).map (powerIn snap.eligiblePower)).sum

theorem mem_voters (t : VoteTally V) (r : UInt32) (v : Pubkey) :
    v ∈ t.voters r ↔ (t.seen.get (r, v)).isSome := by
  simp [voters, mem_keys_iff]

theorem nodup_voters (t : VoteTally V) (r : UInt32) : (t.voters r).Nodup := by
  apply List.Nodup.map_on _ (t.seen.keys_nodup.filter _)
  grind

theorem distinct_empty : Distinct (empty : VoteTally V) where
  nodup := fun key => List.nodup_nil
  mem_bucket := by
    grind [empty, bucket]

theorem counted_empty (snap : ConsensusPowerSnapshot) : Counted snap (empty : VoteTally V) :=
  ⟨fun _ => rfl, fun _ => rfl⟩

/-! ## Counting one more vote -/

section
variable {t : VoteTally V} {r : UInt32} {v : Pubkey} {h : Option Hash}

@[simp] theorem seen_record : (t.record r v h m p).seen = t.seen.put (r, v) h := by
  cases p <;> rfl

/-- A vote that is seen after one more was recorded is an old one or that one. -/
theorem seen_of_record (hseen : (t.record r v h m p).seen.get (r', v') = some h') :
    t.seen.get (r', v') = some h' ∨ (r' = r ∧ v' = v ∧ h' = h) := by
  rw [seen_record] at hseen
  rcases get_put_cases hseen with ⟨hkey, rfl⟩ | ⟨-, hold⟩
  · cases hkey
    exact .inr ⟨rfl, rfl, rfl⟩
  · exact .inl hold

@[simp] theorem signedRounds_record : (t.record r v h m p).signedRounds = t.signedRounds := by
  cases p <;> rfl

theorem bucket_record (key : UInt32 × Option Hash) : (t.record r v h m p).bucket key
      = if key = (r, h) then t.bucket key ++ [v] else t.bucket key := by
  have hvotes : (t.record r v h m p).votes = t.votes.entryPush (r, h) v := by
    cases p <;> rfl
  unfold bucket
  rw [hvotes, getD_entryPush]

/-- Counting a vote of a validator not seen at that round keeps the voters distinct. -/
theorem Distinct.record (ht : Distinct t) (hnew : t.seen.get (r, v) = none) :
    Distinct (t.record r v h m p) where
  nodup := by
    intro key
    rw [bucket_record]
    split
    · -- the new voter was in no bucket of the round
      rename_i hkey
      subst hkey
      have hnot : v ∉ t.bucket (r, h) := by
        rw [ht.mem_bucket, hnew]
        exact fun heq => nomatch heq
      rw [← List.concat_eq_append]
      exact (ht.nodup _).concat hnot
    · exact ht.nodup key
  mem_bucket := by
    intro r' h' v'
    rw [bucket_record, seen_record, get_put]
    by_cases hk : (r', v') = (r, v)
    · obtain ⟨rfl, rfl⟩ := Prod.mk.inj hk
      by_cases hh : h' = h
      · subst hh
        simp
      · have hne : ((r', h') : UInt32 × Option Hash) ≠ (r', h) := fun heq => hh (Prod.mk.inj heq).2
        rw [if_neg hne, ht.mem_bucket, hnew]
        simp [Ne.symm hh]
    · rw [if_neg hk]
      split
      · rename_i hkey
        cases hkey
        have hne : v' ≠ v := fun heq => hk (by rw [heq])
        rw [List.mem_append, ht.mem_bucket, List.mem_singleton]
        simp [hne]
      · exact ht.mem_bucket r' h' v'

theorem OwnSeen.record_other (ht : OwnSeen own t) (hv : v ≠ own) :
    OwnSeen own (t.record r v h m p) := by
  grind [seen_record, signedRounds_record, OwnSeen]

theorem OwnSeen.record_own (ht : OwnSeen own t) :
    OwnSeen own ((t.noteSigned r h).record r own h m p) := by
  intro r'
  rw [seen_record, signedRounds_record]
  show (t.seen.put (r, own) h).get (r', own) = (t.signedRounds.put r h).get r'
  rw [get_put, get_put]
  by_cases hr : r' = r
  · subst hr
    simp
  · rw [if_neg hr, if_neg (fun heq => hr (Prod.mk.inj heq).1)]
    exact ht r'

theorem voters_record (hnew : t.seen.get (r, v) = none) (r' : UInt32) :
    (t.record r v h m p).voters r' = if r' = r then v :: t.voters r' else t.voters r' := by
  grind [voters, seen_record, keys_put_of_get_none]

/-- Counting a new vote with the snapshot's power for its voter keeps the caches right. -/
theorem Counted.record (ht : Counted snap t)
    (hnew : t.seen.get (r, v) = none) (hp : snap.eligibleStake v = p) :
    Counted snap (t.record r v h m p) := by
  have hpower : powerIn snap.eligiblePower v = (p.map UInt64.toNat).getD 0 := by
    unfold powerIn
    rw [show snap.eligiblePower.get v = p from hp]
  constructor
  · intro key
    rw [bucket_record]
    have hcache : ((t.record r v h m p).power.get key).getD 0
        = if key = (r, h) then (t.power.get key).getD 0 + (p.map UInt64.toNat).getD 0
          else (t.power.get key).getD 0 := by
      cases p with
      | some p => exact getD_entryAdd _ _ _ _
      | none =>
        show (t.power.get key).getD 0 = _
        split <;> rfl
    grind [power]
  · intro r'
    rw [voters_record hnew]
    have hcache : ((t.record r v h m p).anyPower.get r').getD 0
        = if r' = r then (t.anyPower.get r').getD 0 + (p.map UInt64.toNat).getD 0
          else (t.anyPower.get r').getD 0 := by
      cases p with
      | some p => exact getD_entryAdd _ _ _ _
      | none =>
        show (t.anyPower.get r').getD 0 = _
        split <;> rfl
    grind [any]

end

/-- A recovered own vote that is not in its bucket is counted like a signed one. -/
theorem restoreVote_eq (hnot : own ∉ t.bucket (r, h)) : restoreVote t snapshot r own h m
      = (t.noteSigned r h).record r own h m (snapshot.bind fun s => s.eligibleStake own) := by
  unfold restoreVote
  grind [noteSigned, noteSeen, bucket, record]

/-! ## Recomputing the caches -/

theorem get_foldl_put {K W : Type} [DecidableEq K] (f : K → W) (l : List K) :
    ∀ (m : HashMap K W) (k : K), (l.foldl (fun m k => m.put k (f k)) m).get k
      = if k ∈ l then some (f k) else m.get k := by
  induction l with
  | nil => intro m k; rfl
  | cons a l ih =>
    grind

theorem getD_foldl_entryAdd (snap : ConsensusPowerSnapshot) (l : List (UInt32 × Pubkey)) :
    ∀ (m : HashMap UInt32 Nat) (r : UInt32), ((l.foldl (fun m k => match snap.eligibleStake k.2 with
        | some power => m.entryAdd k.1 power.toNat
        | none => m) m).get r).getD 0
      = (m.get r).getD 0
        + (((l.filter fun k => k.1 == r).map Prod.snd).map (powerIn snap.eligiblePower)).sum := by
  induction l with
  | nil => intro m r; rfl
  | cons k l ih =>
    intro m r
    have hhead : ∀ m : HashMap UInt32 Nat, ((match snap.eligibleStake k.2 with
        | some power => m.entryAdd k.1 power.toNat
        | none => m).get r).getD 0
        = (m.get r).getD 0 + if k.1 = r then powerIn snap.eligiblePower k.2 else 0 := by
      intro m
      have hpower : powerIn snap.eligiblePower k.2
          = ((snap.eligibleStake k.2).map UInt64.toNat).getD 0 := rfl
      rw [hpower]
      cases snap.eligibleStake k.2 with
      | none => simp
      | some power =>
        grind
    rw [List.foldl_cons, ih, hhead, List.filter_cons]
    grind

/-- `rebuild_vote_power_tallies` makes the caches right, whatever they were. -/
theorem counted_rebuildTally (snap : ConsensusPowerSnapshot) (t : VoteTally V) :
    Counted snap (rebuildTally snap t) := by
  constructor
  · intro key
    show ((t.votes.keys.foldl (fun (m : HashMap _ Nat) key => m.put key
      ((t.bucket key).map (powerIn snap.eligiblePower)).sum) ∅).get key).getD 0 = _
    rw [get_foldl_put fun key => ((t.bucket key).map (powerIn snap.eligiblePower)).sum]
    split
    · rfl
    · -- a key without a bucket has no voters
      rename_i hkey
      have hbucket : t.bucket key = [] := by
        unfold bucket
        rw [(not_mem_keys_iff _ _).mp hkey]
        rfl
      show 0 = ((t.bucket key).map (powerIn snap.eligiblePower)).sum
      rw [hbucket]
      rfl
  · intro r
    exact (getD_foldl_entryAdd snap t.seen.keys ∅ r).trans (Nat.zero_add _)

end VoteTally

namespace ConsensusEngine

variable [Crypto]

/-! ## The engine's tallies -/

/-- Both tallies are right, and counted with the snapshot if there is one. -/
structure TallyInv (e : ConsensusEngine) : Prop where
  prevotes : e.prevotes.Distinct
  precommits : e.precommits.Distinct
  ownPrevotes : e.prevotes.OwnSeen e.validatorPubkey
  ownPrecommits : e.precommits.OwnSeen e.validatorPubkey
  countedPrevotes : ∀ snap, e.powerSnapshot = some snap → e.prevotes.Counted snap
  countedPrecommits : ∀ snap, e.powerSnapshot = some snap → e.precommits.Counted snap

/-- If this is a valid prevote of the current height under the engine's own key, then its round is
    one the engine has signed (or restored). -/
def OwnPrevoteSigned (e : ConsensusEngine) (v : Prevote) : Prop :=
  v.validator = e.validatorPubkey → v.height = e.height →
    v.verifySignatureWithChainId e.signingChainId = true →
    e.prevotes.signedRounds.get v.round ≠ none

/-- The same for a precommit. -/
def OwnPrecommitSigned (e : ConsensusEngine) (v : Precommit) : Prop :=
  v.validator = e.validatorPubkey → v.height = e.height →
    v.verifySignatureWithChainId e.signingChainId = true →
    e.precommits.signedRounds.get v.round ≠ none

/-- The own key's votes come in only for rounds it has signed. -/
def EchoesSigned (e : ConsensusEngine) : Event → Prop
  | .recvPrevote v => e.OwnPrevoteSigned v
  | .recvPrecommit v => e.OwnPrecommitSigned v
  | _ => True

section
variable {env : Env} {e e' : ConsensusEngine} {ev : Event}

variable {snap : ConsensusPowerSnapshot}

omit [Crypto] in
theorem eligibleStake_of_snapshot (h : e.powerSnapshot = some snap)
    (v : Pubkey) : e.eligibleStake env v = snap.eligibleStake v := by
  unfold eligibleStake
  rw [h]

/-- **One move keeps the tallies right.** -/
theorem Step.tallyInv (h : Step env e ev e') (hecho : e.EchoesSigned ev) (hI : e.TallyInv) :
    e'.TallyInv := by
  cases h with
  | recvPrevote v power hheight hsig hpower hnew =>
    have hother : v.validator ≠ e.validatorPubkey := by
      intro hown
      apply hecho hown hheight hsig
      rw [← hI.ownPrevotes, ← hown]
      exact hnew
    refine ⟨?_, hI.precommits, ?_, hI.ownPrecommits, ?_, hI.countedPrecommits⟩
    · show (e.prevotes.record v.round v.validator v.blockHash v (some power)).Distinct
      exact hI.prevotes.record hnew
    · exact hI.ownPrevotes.record_other hother
    intro snap hsnap
    exact (hI.countedPrevotes snap hsnap).record hnew
      ((eligibleStake_of_snapshot hsnap _).symm.trans hpower)
  | recvPrecommit v power hheight hsig hpower hnew =>
    have hother : v.validator ≠ e.validatorPubkey := by
      intro hown
      apply hecho hown hheight hsig
      rw [← hI.ownPrecommits, ← hown]
      exact hnew
    refine ⟨hI.prevotes, ?_, hI.ownPrevotes, ?_, hI.countedPrevotes, ?_⟩
    · show (e.precommits.record v.round v.validator v.blockHash v (some power)).Distinct
      exact hI.precommits.record hnew
    · exact hI.ownPrecommits.record_other hother
    intro snap hsnap
    exact (hI.countedPrecommits snap hsnap).record hnew
      ((eligibleStake_of_snapshot hsnap _).symm.trans hpower)
  | prevote bh hstep hsigned =>
    have hnew : e.prevotes.seen.get (e.round, e.validatorPubkey) = none := by
      rw [hI.ownPrevotes]
      exact hsigned
    refine ⟨.record (t := e.prevotes.noteSigned e.round bh) ⟨hI.prevotes.nodup,
      hI.prevotes.mem_bucket⟩ hnew, hI.precommits, hI.ownPrevotes.record_own, hI.ownPrecommits, ?_,
      hI.countedPrecommits⟩
    intro snap hsnap
    have hcount : (e.prevotes.noteSigned e.round bh).Counted snap :=
      ⟨(hI.countedPrevotes snap hsnap).power, (hI.countedPrevotes snap hsnap).any⟩
    exact hcount.record hnew (eligibleStake_of_snapshot hsnap _).symm
  | precommit bh hstep hsigned =>
    have hnew : e.precommits.seen.get (e.round, e.validatorPubkey) = none := by
      rw [hI.ownPrecommits]
      exact hsigned
    refine ⟨hI.prevotes, .record (t := e.precommits.noteSigned e.round bh)
      ⟨hI.precommits.nodup, hI.precommits.mem_bucket⟩ hnew, hI.ownPrevotes,
      hI.ownPrecommits.record_own, hI.countedPrevotes, ?_⟩
    intro snap hsnap
    have hcount : (e.precommits.noteSigned e.round bh).Counted snap :=
      ⟨(hI.countedPrecommits snap hsnap).power, (hI.countedPrecommits snap hsnap).any⟩
    exact hcount.record hnew (eligibleStake_of_snapshot hsnap _).symm
  | _ => exact { hI with }

/-! ## Where entries come from -/

variable {r : UInt32} {bh : Option Hash}

section
variable (h : Step env e ev e')
include h

/-- A seen prevote was seen before, was just received, or was just signed. -/
theorem Step.seenPrevote (hseen : e'.prevotes.seen.get (r, k) = some bh) :
    e.prevotes.seen.get (r, k) = some bh
      ∨ (∃ v, ev = .recvPrevote v ∧ v.round = r ∧ v.validator = k ∧ v.blockHash = bh
          ∧ v.height = e.height ∧ v.verifySignatureWithChainId e.signingChainId = true)
      ∨ (ev = .prevote (e.ownPrevote bh) ∧ r = e.round ∧ k = e.validatorPubkey) := by
  cases h with
  | recvPrevote v power hheight hsig =>
    rcases seen_of_record hseen with hold | ⟨rfl, rfl, rfl⟩
    · exact .inl hold
    · exact .inr (.inl ⟨v, rfl, rfl, rfl, rfl, hheight, hsig⟩)
  | prevote bh' =>
    rcases seen_of_record hseen with hold | ⟨rfl, rfl, rfl⟩
    · exact .inl hold
    · exact .inr (.inr ⟨rfl, rfl, rfl⟩)
  | _ => exact .inl hseen

/-- A seen precommit was seen before, was just received, or was just signed. -/
theorem Step.seenPrecommit (hseen : e'.precommits.seen.get (r, k) = some bh) :
    e.precommits.seen.get (r, k) = some bh
      ∨ (∃ v, ev = .recvPrecommit v ∧ v.round = r ∧ v.validator = k ∧ v.blockHash = bh
          ∧ v.height = e.height ∧ v.verifySignatureWithChainId e.signingChainId = true)
      ∨ (ev = .precommit (e.ownPrecommit env bh) ∧ r = e.round ∧ k = e.validatorPubkey) := by
  cases h with
  | recvPrecommit v power hheight hsig =>
    rcases seen_of_record hseen with hold | ⟨rfl, rfl, rfl⟩
    · exact .inl hold
    · exact .inr (.inl ⟨v, rfl, rfl, rfl, rfl, hheight, hsig⟩)
  | precommit bh' =>
    rcases seen_of_record hseen with hold | ⟨rfl, rfl, rfl⟩
    · exact .inl hold
    · exact .inr (.inr ⟨rfl, rfl, rfl⟩)
  | _ => exact .inl hseen

/-- Signing writes one new round; nothing else touches the signed rounds. -/
theorem Step.signedPrevotes :
    (∃ bh, ev = .prevote (e.ownPrevote bh) ∧ e.prevotes.signedRounds.get e.round = none
        ∧ e'.prevotes.signedRounds = e.prevotes.signedRounds.put e.round bh)
      ∨ ((∀ v, ev ≠ .prevote v) ∧ e'.prevotes.signedRounds = e.prevotes.signedRounds) := by
  cases h with
  | prevote bh hstep hsigned =>
    refine .inl ⟨bh, rfl, hsigned, ?_⟩
    simp only [recordOwnPrevote, signedRounds_record]
    rfl
  | recvPrevote v power =>
    simp [recordPrevote, signedRounds_record]
  | _ => exact .inr ⟨fun _ => Event.noConfusion, rfl⟩

theorem Step.signedPrecommits :
    (∃ bh, ev = .precommit (e.ownPrecommit env bh) ∧ e.precommits.signedRounds.get e.round = none
        ∧ e'.precommits.signedRounds = e.precommits.signedRounds.put e.round bh)
      ∨ ((∀ v, ev ≠ .precommit v) ∧ e'.precommits.signedRounds = e.precommits.signedRounds) := by
  cases h with
  | precommit bh hstep hsigned =>
    refine .inl ⟨bh, rfl, hsigned, ?_⟩
    simp only [recordOwnPrecommit, signedRounds_record]
    rfl
  | recvPrecommit v power =>
    simp [recordPrecommit, signedRounds_record]
  | _ => exact .inr ⟨fun _ => Event.noConfusion, rfl⟩

/-- Signed rounds stay signed. -/
theorem Step.signed_mono (r : UInt32) :
    (e.prevotes.signedRounds.get r ≠ none → e'.prevotes.signedRounds.get r ≠ none)
      ∧ (e.precommits.signedRounds.get r ≠ none → e'.precommits.signedRounds.get r ≠ none) := by
  grind [signedPrevotes, signedPrecommits]

end

/-- What holds between the start of a call and a state within it: the frame, and that what was
    signed at the start stays signed. -/
structure Within (e e₁ : ConsensusEngine) : Prop where
  frame : Frame e e₁
  prevotes : ∀ r, e.prevotes.signedRounds.get r ≠ none → e₁.prevotes.signedRounds.get r ≠ none
  precommits : ∀ r, e.precommits.signedRounds.get r ≠ none → e₁.precommits.signedRounds.get r ≠ none

omit [Crypto] in
theorem Within.refl (e : ConsensusEngine) : Within e e := ⟨.refl e, fun _ hs => hs, fun _ hs => hs⟩

theorem Within.step (hw : Within e₀ e) (hs : Step env e ev e') : Within e₀ e' :=
  ⟨hw.frame.trans hs.frame, fun r hr => (hs.signed_mono r).1 (hw.prevotes r hr),
    fun r hr => (hs.signed_mono r).2 (hw.precommits r hr)⟩

theorem Within.echoesSigned (hw : Within e₀ e) (h : e₀.EchoesSigned ev) : e.EchoesSigned ev := by
  cases ev with
  | recvPrevote v =>
    intro hown hheight hsig
    rw [hw.frame.validatorPubkey] at hown
    rw [hw.frame.height] at hheight
    rw [hw.frame.signingChainId] at hsig
    exact hw.prevotes _ (h hown hheight hsig)
  | recvPrecommit v =>
    intro hown hheight hsig
    rw [hw.frame.validatorPubkey] at hown
    rw [hw.frame.height] at hheight
    rw [hw.frame.signingChainId] at hsig
    exact hw.precommits _ (h hown hheight hsig)
  | _ => trivial

/-- **A call keeps the tallies right**, if the own votes it takes in are of signed rounds. -/
theorem Does.tallyInv (h : Does env allow e as e') (hecho : ∀ ev, allow ev → e.EchoesSigned ev)
    (hI : e.TallyInv) : e'.TallyInv := by
  obtain ⟨evs, htr, -, hallow⟩ := h
  have hinv := Trace.invariant (I := fun e₁ => e₁.TallyInv ∧ Within e e₁) ?_ htr hallow
    ⟨hI, Within.refl e⟩
  · exact hinv.1
  · rintro e₁ ev e₂ hs hev ⟨hI₁, hw⟩
    exact ⟨hs.tallyInv (hw.echoesSigned (hecho ev hev)) hI₁, hw.step hs⟩

/-! ## Quorums are quorums of distinct stake -/

section
variable (hsnap : e.powerSnapshot = some snap)
include hsnap

section
omit [Crypto]

theorem voterStake_of_snapshot
    (l : List Pubkey) : e.voterStake env l = (l.map (powerIn snap.eligiblePower)).sum := by
  unfold voterStake
  congr 1
  apply List.map_congr_left
  intro v _
  unfold stakeOf
  rw [eligibleStake_of_snapshot hsnap]
  rfl

/-- However the power of a bucket is obtained, it is the sum over its voters. -/
theorem bucketPower_eq {V : Type} {t : VoteTally V}
    (ht : t.Counted snap) (key : UInt32 × Option Hash) :
    e.bucketPower env t key = ((t.bucket key).map (powerIn snap.eligiblePower)).sum := by
  unfold bucketPower
  have hcache := ht.power key
  cases hget : t.power.get key with
  | none => exact voterStake_of_snapshot hsnap _
  | some p =>
    rw [hget] at hcache
    exact hcache

theorem totalEligibleStake_of_snapshot : e.totalEligibleStake env = snap.totalEligibleStake := by
  unfold totalEligibleStake
  rw [hsnap]

/-- A declared quorum has 2/3 of the stake. -/
theorem Quorum.two_thirds {V : Type} {t : VoteTally V}
    (ht : t.Counted snap) (hq : e.Quorum env t key) :
    0 < snap.totalEligibleStake ∧ snap.totalEligibleStake * 2
      ≤ ((t.bucket key).map (powerIn snap.eligiblePower)).sum * 3 := by
  grind [Quorum, hasSupermajorityPower, bucketPower_eq, totalEligibleStake_of_snapshot]

/-- A polka found by recounting the voters is a quorum too. -/
theorem quorum_of_hasPolkaFor (ht : e.prevotes.Counted snap)
    (hp : e.hasPolkaFor env r bh = true) : e.Quorum env e.prevotes (r, bh) := by
  unfold hasPolkaFor at hp
  split at hp
  · rename_i voters hvoters
    have hbucket : e.prevotes.bucket (r, bh) = voters := by
      unfold VoteTally.bucket
      rw [hvoters]
      rfl
    unfold Quorum
    rw [bucketPower_eq hsnap ht, hbucket,
      ← (voterStake_of_snapshot hsnap voters : e.voterStake env voters = _)]
    exact hp
  · exact absurd hp Bool.false_ne_true

end

end

/-! ## Every public method -/

section
omit [Crypto]

theorem TallyInv.startHeight (hI : e.TallyInv) (h : UInt64) : (e.startHeight h).TallyInv where
  prevotes := distinct_empty
  precommits := distinct_empty
  ownPrevotes := fun _ => rfl
  ownPrecommits := fun _ => rfl
  countedPrevotes := fun snap _ => counted_empty snap
  countedPrecommits := fun snap _ => counted_empty snap

theorem TallyInv.rebuildPowerSnapshot (hI : e.TallyInv) (vs : ValidatorSet) (pool : StakePool) :
    (e.rebuildPowerSnapshot vs pool).TallyInv where
  prevotes := ⟨hI.prevotes.nodup, hI.prevotes.mem_bucket⟩
  precommits := ⟨hI.precommits.nodup, hI.precommits.mem_bucket⟩
  ownPrevotes := hI.ownPrevotes
  ownPrecommits := hI.ownPrecommits
  countedPrevotes := by
    intro snap hsnap
    cases hsnap
    exact counted_rebuildTally _ _
  countedPrecommits := by
    intro snap hsnap
    cases hsnap
    exact counted_rebuildTally _ _

/-- A tally after restoring an own vote of a round not signed before. -/
theorem restoreVote_inv {V : Type} {t own}
    {m : V} (snapshot : Option ConsensusPowerSnapshot) (ht : t.Distinct)
    (hown : t.OwnSeen own) (hc : ∀ snap, snapshot = some snap → t.Counted snap)
    (hsigned : t.signedRounds.get r = none) :
    (restoreVote t snapshot r own b m).Distinct ∧ (restoreVote t snapshot r own b m).OwnSeen own
      ∧ ∀ snap, snapshot = some snap → (restoreVote t snapshot r own b m).Counted snap := by
  have hnew : t.seen.get (r, own) = none := (hown r).trans hsigned
  have hnot : own ∉ t.bucket (r, b) := by
    rw [ht.mem_bucket, hnew]
    exact fun heq => nomatch heq
  rw [restoreVote_eq hnot]
  refine ⟨.record (t := t.noteSigned r b) ⟨ht.nodup, ht.mem_bucket⟩ hnew, hown.record_own, ?_⟩
  intro snap hsnap
  have hcount : (t.noteSigned r b).Counted snap := ⟨(hc snap hsnap).power, (hc snap hsnap).any⟩
  refine hcount.record hnew ?_
  rw [hsnap]
  rfl

end

section
variable (hI : e.TallyInv) (h : UInt64) (r : UInt32) (bh : Option Hash) (sig : PqSignature)
include hI h

theorem TallyInv.restoreSignedPrevote : (e.restoreSignedPrevote h r bh sig).2.TallyInv := by
  rcases restoreSignedPrevote_cases e h r bh sig with heq | ⟨-, hsigned, heq⟩
  · rw [heq]
    exact hI
  · obtain ⟨hd, ho, hc⟩ := restoreVote_inv (b := bh)
      (m := ⟨h, r, bh, e.validatorPubkey, sig⟩) e.powerSnapshot hI.prevotes hI.ownPrevotes
      hI.countedPrevotes hsigned
    rw [heq]
    exact ⟨hd, hI.precommits, ho, hI.ownPrecommits, hc, hI.countedPrecommits⟩

theorem TallyInv.restoreSignedPrecommit (ts : UInt64) :
    (e.restoreSignedPrecommit h r bh sig ts).2.TallyInv := by
  rcases restoreSignedPrecommit_cases e h r bh sig ts with heq | ⟨-, hsigned, -, lr, lv, heq⟩
  · rw [heq]
    exact hI
  · obtain ⟨hd, ho, hc⟩ := restoreVote_inv (b := bh)
      (m := ⟨h, r, bh, e.validatorPubkey, sig, ts⟩) e.powerSnapshot hI.precommits
      hI.ownPrecommits hI.countedPrecommits hsigned
    -- the lock it may restore is no part of the tallies
    rw [heq]
    exact ⟨hI.prevotes, hd, hI.ownPrevotes, ho, hI.countedPrevotes, hc⟩

end
end
end ConsensusEngine

namespace Call

variable [Crypto]

/-- The condition on a call: the votes under the engine's own key that it hands in are of rounds
    the engine has signed. -/
def OwnVotesSigned (e : ConsensusEngine) : Call → Prop
  | .op _ (.onPrevote v) => e.OwnPrevoteSigned v
  | .op _ (.onPrecommit v) => e.OwnPrecommitSigned v
  | .op _ .drainFutureMessages =>
    (∀ v ∈ (e.futurePrevotes.get e.height).getD [], e.OwnPrevoteSigned v)
      ∧ ∀ v ∈ (e.futurePrecommits.get e.height).getD [], e.OwnPrecommitSigned v
  | _ => True

theorem echoesSigned_of_ownVotesSigned
    (h : OwnVotesSigned e (.op env o)) (ev : Event) (hev : ev.Internal ∨ o.Takes e ev) :
    e.EchoesSigned ev := by
  have hin := Op.Takes.vote hev
  cases ev with
  | recvPrevote v =>
    rcases hin with rfl | ⟨rfl, hv⟩
    · exact h
    · exact h.1 v hv
  | recvPrecommit v =>
    rcases hin with rfl | ⟨rfl, hv⟩
    · exact h
    · exact h.2 v hv
  | _ => trivial

/-- Blocks are only ever added under their own hash. -/
theorem blocksWf_next (c : Call) (hwf : e.BlocksWf) : (c.next e).BlocksWf := by
  by_cases haside : c.Aside
  · intro k b hget
    rcases (c.keeps_next haside e).proposalBlocks k b hget with hold | ⟨hk, -⟩
    · exact hwf k b hold
    · exact hk.symm
  · cases c with
    | op env o => exact Does.blocksWf (o.run_does env hwf) hwf
    | startHeight h =>
      intro k b hget
      exact absurd hget (by simp [next, ConsensusEngine.startHeight])
    | _ => exact absurd trivial haside

theorem tallyInv_next (c : Call) (hok : OwnVotesSigned e c)
    (hwf : e.BlocksWf) (hI : e.TallyInv) : (c.next e).TallyInv := by
  by_cases hminor : c.Minor
  · obtain ⟨_, _, _, _, _, _, _, _, heq⟩ := next_minor hminor e
    rw [heq]
    exact { hI with }
  · cases c with
    | op env o =>
      exact Does.tallyInv (o.run_does env hwf) (echoesSigned_of_ownVotesSigned hok) hI
    | startHeight h => exact hI.startHeight h
    | rebuildPowerSnapshot vs pool => exact hI.rebuildPowerSnapshot vs pool
    | restoreSignedPrevote h r bh sig => exact hI.restoreSignedPrevote h r bh sig
    | restoreSignedPrecommit h r bh sig ts => exact hI.restoreSignedPrecommit h r bh sig ts
    | _ => exact absurd trivial hminor

end Call

/-! ## The result -/

/-- What a tally must be to count each validator once, with the power the snapshot gives it. -/
structure CountsOnce {V : Type} (snap : ConsensusPowerSnapshot) (t : VoteTally V) : Prop where
  once : ∀ key, (t.bucket key).Nodup
  oneBucket : ∀ r h h' v, v ∈ t.bucket (r, h) → v ∈ t.bucket (r, h') → h = h'
  power : ∀ key, (t.power.get key).getD 0 = ((t.bucket key).map (powerIn snap.eligiblePower)).sum
  anyPower : ∀ r, ∃ voters : List Pubkey, voters.Nodup
    ∧ (∀ v, v ∈ voters ↔ ∃ h, v ∈ t.bucket (r, h))
    ∧ (t.anyPower.get r).getD 0 = (voters.map (powerIn snap.eligiblePower)).sum

theorem VoteTally.Distinct.countsOnce {V : Type} {t : VoteTally V}
    (hd : t.Distinct) (hc : t.Counted snap) : CountsOnce snap t where
  once := hd.nodup
  oneBucket := by
    grind [mem_bucket]
  power := hc.power
  anyPower := by
    intro r
    refine ⟨t.voters r, t.nodup_voters r, ?_, hc.any r⟩
    intro v
    rw [mem_voters, Option.isSome_iff_exists]
    simp_all [mem_bucket]

section
variable [Crypto]

theorem Call.Reached.blocksWf (h : Call.Reached ok e) : e.BlocksWf := by
  induction h with
  | new kp pk chainId minStake timeouts =>
    exact fun k b hget => absurd hget (by simp [ConsensusEngine.new])
  | call c _ _ ih => exact Call.blocksWf_next c ih

theorem Call.Reached.tallyInv (h : Call.Reached Call.OwnVotesSigned e) : e.TallyInv := by
  induction h with
  | new kp pk chainId minStake timeouts =>
    exact ⟨distinct_empty, distinct_empty, fun _ => rfl, fun _ => rfl,
      fun _ hsnap => (nomatch hsnap), fun _ hsnap => (nomatch hsnap)⟩
  | call c hprev hok ih => exact Call.tallyInv_next c hok hprev.blocksWf ih

/-- **Each validator is counted once**, in every state reached by calls that hand in own votes for
    signed rounds only; and what is declared a polka or a commit quorum has 2/3 of the stake. -/
theorem tallies_count_once {e : ConsensusEngine} {snap : ConsensusPowerSnapshot}
    (h : Call.Reached Call.OwnVotesSigned e) (hsnap : e.powerSnapshot = some snap) :
    CountsOnce snap e.prevotes ∧ CountsOnce snap e.precommits
      ∧ (∀ env key, e.Quorum env e.prevotes key → snap.totalEligibleStake * 2
          ≤ ((e.prevotes.bucket key).map (powerIn snap.eligiblePower)).sum * 3)
      ∧ (∀ env r bh, e.hasPolkaFor env r bh = true → snap.totalEligibleStake * 2
          ≤ ((e.prevotes.bucket (r, bh)).map (powerIn snap.eligiblePower)).sum * 3)
      ∧ (∀ env key, e.Quorum env e.precommits key → snap.totalEligibleStake * 2
          ≤ ((e.precommits.bucket key).map (powerIn snap.eligiblePower)).sum * 3) := by
  have hI := h.tallyInv
  have hpv := hI.countedPrevotes snap hsnap
  have hpc := hI.countedPrecommits snap hsnap
  refine ⟨hI.prevotes.countsOnce hpv, hI.precommits.countsOnce hpc, ?_, ?_, ?_⟩
  · intro env key hq
    exact (Quorum.two_thirds hsnap hpv hq).2
  · intro env r bh hp
    have hq := quorum_of_hasPolkaFor hsnap hpv hp
    exact (Quorum.two_thirds hsnap hpv hq).2
  · intro env key hq
    exact (Quorum.two_thirds hsnap hpc hq).2

end

/-- Two validators of equal stake, and the engine of the first at the start of height 1. -/
def pairStakes : List (Pubkey × UInt64) := [(⟨1⟩, 100), (⟨2⟩, 100)]

def pairSet : ValidatorSet := .ofStakes pairStakes (by decide)

def pairPool : StakePool := .ofStakes pairStakes

def pairEnv : Env := .plain pairSet pairPool 0

def pairNew : ConsensusEngine := .new ⟨1⟩ ⟨1⟩ ⟨[], nil_short⟩ 1 .default

def pairEngine : ConsensusEngine := (pairNew.startHeight 1).rebuildPowerSnapshot pairSet pairPool

theorem reached_pairEngine [Crypto] (ok : ConsensusEngine → Call → Prop)
    (hstart : ok pairNew (.startHeight 1))
    (hpower : ok (pairNew.startHeight 1) (.rebuildPowerSnapshot pairSet pairPool)) :
    Call.Reached ok pairEngine :=
  .call (.rebuildPowerSnapshot pairSet pairPool) (.call (.startHeight 1) (.new ..) hstart) hpower

theorem powerSnapshot_op [Crypto] (o : Op) (hwf : e.BlocksWf) :
    ((Call.op env o).next e).powerSnapshot = e.powerSnapshot :=
  (Does.frame (o.run_does env hwf)).powerSnapshot

theorem powerSnapshot_pair [Crypto] (env : Env) (o o' : Op) :
    ((Call.op env o').next ((Call.op env o).next pairEngine)).powerSnapshot
      = some (.build pairSet pairPool 1) := by
  have hwf : pairEngine.BlocksWf := fun k b hget => nomatch hget
  rw [powerSnapshot_op o' (Call.blocksWf_next (.op env o) hwf), powerSnapshot_op o hwf]
  rfl

/-- Our own nil prevote comes back before we sign at round 0 (it was signed before a restart that
    lost the log); then the propose timeout signs it again.  It is counted twice, and half of the
    stake is a nil polka. -/
theorem own_echo_counted_twice : ∃ (_ : Crypto) (e : ConsensusEngine)
    (snap : ConsensusPowerSnapshot), Call.Reached (fun _ _ => True) e
      ∧ e.powerSnapshot = some snap ∧ ¬ CountsOnce snap e.prevotes
      ∧ e.Quorum pairEnv e.prevotes (0, none)
      ∧ ((e.prevotes.bucket (0, none)).dedup.map (powerIn snap.eligiblePower)).sum * 3
          < snap.totalEligibleStake * 2 := by
  let _ : Crypto := Crypto.plain
  refine ⟨Crypto.plain, _, .build pairSet pairPool 1, .call (.op pairEnv (.onTimeout .Propose 0))
      (.call (.op pairEnv (.onPrevote (pairEngine.ownPrevote none)))
        (reached_pairEngine _ trivial trivial) trivial) trivial, powerSnapshot_pair .., ?_, ?_, ?_⟩
  · intro hcounts
    exact absurd (hcounts.once (0, none)) (by decide)
  · show _ = true
    decide
  · decide

/-- The same own vote, coming back after the round is signed. -/
theorem tallies_count_once_echo : ∃ (_ : Crypto) (e : ConsensusEngine)
    (snap : ConsensusPowerSnapshot), e.powerSnapshot = some snap ∧ CountsOnce snap e.prevotes
      ∧ e.prevotes.bucket (0, none) = [⟨1⟩] := by
  let _ : Crypto := Crypto.plain
  refine ⟨Crypto.plain, _, .build pairSet pairPool 1, powerSnapshot_pair .., (tallies_count_once
    (e := (Call.op pairEnv (.onPrevote (pairEngine.ownPrevote none))).next
      ((Call.op pairEnv (.onTimeout .Propose 0)).next pairEngine))
    (.call _ (.call _ (reached_pairEngine _ trivial trivial) trivial) ?_) (powerSnapshot_pair ..)).1, ?_⟩
  · intro _ _ _
    decide
  · decide

end Lichen
