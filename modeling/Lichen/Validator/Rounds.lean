/-
  Who drives the round number.

  An engine enters a round in two ways: from round `a` it starts `a + 1`, after a nil quorum of
  precommits or the precommit timeout; or `check_round_skip` takes it to the highest round it has
  seen a vote for, once voters with more than 1/3 of the stake are seen above its own round.

  The skip counts voters over all later rounds but goes to the highest one any of them named, so an
  adversary with far less than 1/3 of the stake names the round as soon as correct validators are
  one round ahead (`adversary_names_round`).  What does hold is that no skip happens without a
  correct validator being ahead (`rounds_driven_by_correct`).
-/
import Lichen.Validator.Agreement

open Base
namespace Lichen
open ConsensusEngine List

/-- `k` has voted at round `r`. -/
def Voted (log : List ConsensusAction) (k : Pubkey) (r : UInt32) : Prop :=
  (∃ bh, Prevoted log k r bh) ∨ ∃ bh, Precommitted log k r bh

namespace ConsensusEngine

/-- The engine has counted a vote of `k` at round `r`. -/
def HasVote (e : ConsensusEngine) (r : UInt32) (k : Pubkey) : Prop :=
  e.prevotes.seen.get (r, k) ≠ none ∨ e.precommits.seen.get (r, k) ≠ none

variable {e : ConsensusEngine} {r : UInt32} {k : Pubkey}

theorem mem_futureKeys : (r, k) ∈ e.futureKeys ↔ e.round < r ∧ e.HasVote r k := by
  unfold futureKeys HasVote
  rw [mem_filter, mem_append, HashMap.mem_keys_iff, HashMap.mem_keys_iff,
    decide_eq_true_eq, Option.isSome_iff_ne_none, Option.isSome_iff_ne_none, and_comm]

/-- The running maximum is one of the rounds, or where it started; and no round is above it. -/
theorem foldl_max_spec (l : List (UInt32 × Pubkey)) : ∀ m : UInt32,
      (l.foldl (fun m k => if m < k.1 then k.1 else m) m = m
        ∨ ∃ k, (l.foldl (fun m k => if m < k.1 then k.1 else m) m, k) ∈ l)
      ∧ ∀ key ∈ l, key.1 ≤ l.foldl (fun m k => if m < k.1 then k.1 else m) m := by
  induction l with
  | nil =>
    intro m
    exact ⟨.inl rfl, fun key hkey => absurd hkey not_mem_nil⟩
  | cons a l ih =>
    intro m
    rw [foldl_cons]
    obtain ⟨hwhich, hle⟩ := ih (if m < a.1 then a.1 else m)
    have hstart : a.1 ≤ if m < a.1 then a.1 else m := by
      split
      · exact UInt32.le_refl _
      · rename_i hnot
        exact UInt32.not_lt.mp hnot
    constructor
    · rcases hwhich with heq | ⟨k, hk⟩
      · rw [heq]
        split
        · exact .inr ⟨a.2, mem_cons_self⟩
        · exact .inl rfl
      · exact .inr ⟨k, mem_cons_of_mem _ hk⟩
    · intro key hkey
      rcases mem_cons.mp hkey with rfl | hmem
      · exact UInt32.le_trans hstart (le_foldl_max l _)
      · exact hle key hmem

theorem le_maxRound_of_mem (h : (r, k) ∈ e.futureKeys) : r ≤ e.maxRound :=
  (foldl_max_spec e.futureKeys e.round).2 (r, k) h

/-- Somebody named the round a skip goes to. -/
theorem exists_vote_maxRound (h : e.maxRound ≠ e.round) : ∃ k, (e.maxRound, k) ∈ e.futureKeys := by
  rcases (foldl_max_spec e.futureKeys e.round).1 with heq | hmem
  · exact absurd heq h
  · exact hmem

variable [Crypto]

section
variable {env : Env} {e e' : ConsensusEngine} {ev : Event}

/-- Counted votes stay counted. -/
theorem Step.hasVote_mono (h : Step env e ev e') (hv : e.HasVote r k) : e'.HasVote r k := by
  have hput : ∀ (m : HashMap (UInt32 × Pubkey) (Option Hash)) (key : UInt32 × Pubkey)
      (bh : Option Hash), m.get (r, k) ≠ none → (m.put key bh).get (r, k) ≠ none := by
    intro m key bh hm
    rw [HashMap.get_put]
    split
    · exact Option.some_ne_none _
    · exact hm
  cases h with
  | recvPrevote v power =>
    refine hv.imp_left fun hseen => ?_
    simp only [recordPrevote, VoteTally.seen_record]
    exact hput _ _ _ hseen
  | recvPrecommit v power =>
    refine hv.imp_right fun hseen => ?_
    simp only [recordPrecommit, VoteTally.seen_record]
    exact hput _ _ _ hseen
  | prevote bh =>
    refine hv.imp_left fun hseen => ?_
    simp only [recordOwnPrevote, VoteTally.seen_record]
    exact hput _ _ _ hseen
  | precommit bh =>
    refine hv.imp_right fun hseen => ?_
    simp only [recordOwnPrecommit, VoteTally.seen_record]
    exact hput _ _ _ hseen
  | _ => exact hv

/-- The rounds this validator has signed are not above its own. -/
def OwnPast (e : ConsensusEngine) : Prop :=
  ∀ r, (e.prevotes.signedRounds.get r ≠ none ∨ e.precommits.signedRounds.get r ≠ none) →
    r ≤ e.round

section
variable (h : Step env e ev e')
include h

/-- The rounds signed after a move: those signed before, and perhaps the current one. -/
theorem Step.signed_cases
    (hr : e'.prevotes.signedRounds.get r ≠ none ∨ e'.precommits.signedRounds.get r ≠ none) :
    (e.prevotes.signedRounds.get r ≠ none ∨ e.precommits.signedRounds.get r ≠ none)
      ∨ r = e.round := by
  grind [signedPrevotes, signedPrecommits]

theorem Step.advances_subset : ∀ x ∈ e.advances, x ∈ e'.advances := by
  intro x _
  rcases h.round_cases with ⟨-, heq⟩ | ⟨-, -, heq⟩ | ⟨-, heq⟩ <;> grind

/-- A move that does not wrap keeps own votes at or below the round. -/
theorem Step.ownPast (hmax : (MAX_ROUND, 0) ∉ e'.advances) (hpast : e.OwnPast) : e'.OwnPast := by
  have hround : e.round ≤ e'.round := by
    rcases h.round_cases with ⟨heq, -⟩ | ⟨hlt, -, -⟩ | ⟨-, heq⟩
    · rw [heq]
      exact UInt32.le_refl _
    · exact UInt32.le_of_lt hlt
    · grind
  intro r hr
  rcases h.signed_cases hr with hold | rfl
  · exact UInt32.le_trans (hpast r hold) hround
  · exact hround

/-- Entering a round is a start of the next one, or a skip. -/
theorem Step.advances_cases : e'.advances = e.advances
      ∨ e'.advances = e.advances ++ [(e.round, e.round + 1)]
      ∨ e.Skips env ∧ e'.advances = e.advances ++ [(e.round, e.maxRound)] := by
  cases h with
  | advance hstep hwhy => exact .inr (.inl rfl)
  | skip htotal hmax hstake => exact .inr (.inr ⟨⟨htotal, hmax, hstake⟩, rfl⟩)
  | _ => exact .inl rfl

end
end
end ConsensusEngine

namespace Setting

variable {S : Setting} {r : UInt32} {k : Pubkey}

theorem voted_append : Voted (l ++ l') k r ↔ Voted l k r ∨ Voted l' k r := by
  unfold Voted
  simp only [prevoted_append, precommitted_append, exists_or]
  grind

/-- Voters with more than 1/3 of the stake, some of them correct, were above round `a`: the engine
    has counted a vote of each at a round up to `R`, which the correct ones among them had sent, and
    one of the votes is for `R`. -/
def Overtaken (S : Setting) (e : ConsensusEngine) (log : List ConsensusAction) (a R : UInt32) :
    Prop :=
  ∃ l : List Pubkey, l.Nodup ∧ S.weighted.total < weight S.weighted.w l * 3
    ∧ (∀ k ∈ l, ∃ r, a < r ∧ r ≤ R ∧ e.HasVote r k ∧ (S.correct k = true → Voted log k r))
    ∧ (∃ k ∈ l, e.HasVote R k) ∧ ∃ k ∈ l, S.correct k = true

variable {e : ConsensusEngine} {log : List ConsensusAction}

theorem Overtaken.mono (hmono : ∀ r k, e.HasVote r k → e'.HasVote r k) (h : S.Overtaken e log a R) :
    S.Overtaken e' log a R := by
  grind [Overtaken]

variable {pk : Pubkey}

variable [Crypto]

/-- A counted vote of a correct validator was sent. -/
theorem Linked.voted (h : Linked S log pk e) (hv : e.HasVote r k)
    (hk : S.correct k = true) : Voted log k r := by
  rcases hv with hseen | hseen
  · obtain ⟨bh, hbh⟩ := Option.ne_none_iff_exists'.mp hseen
    obtain ⟨bh', hsent, -⟩ := h.seenPrevote r k bh hbh hk
    exact .inl ⟨bh', hsent⟩
  · obtain ⟨bh, hbh⟩ := Option.ne_none_iff_exists'.mp hseen
    obtain ⟨bh', hsent, -⟩ := h.seenPrecommit r k bh hbh hk
    exact .inr ⟨bh', hsent⟩

/-- An engine that has not wrapped has no own vote above its round. -/
theorem Linked.ne_own (h : Linked S log pk e) (hpast : e.OwnPast) (hlt : e.round < r)
    (hv : e.HasVote r k) : k ≠ pk := by
  rintro rfl
  have hsigned : e.prevotes.signedRounds.get r ≠ none ∨ e.precommits.signedRounds.get r ≠ none := by
    rcases hv with hseen | hseen
    · left
      rw [← h.tally.ownPrevotes, h.validatorPubkey]
      exact hseen
    · right
      rw [← h.tally.ownPrecommits, h.validatorPubkey]
      exact hseen
  exact UInt32.not_lt.mpr (hpast r hsigned) hlt

variable {more : List ConsensusAction}

/-- **A skip means being overtaken.** `log` is what was sent before the call, in which only `pk`
    has sent more. -/
theorem Linked.overtaken
    {env} (h : Linked S (log ++ more) pk e) (hmore : ∀ k r, Voted more k r → k = pk)
    (hpast : e.OwnPast) (hskips : e.Skips env) : S.Overtaken e log e.round e.maxRound := by
  obtain ⟨-, hmax, hstake⟩ := hskips
  have hthird : S.weighted.total < weight S.weighted.w (e.futureKeys.map Prod.snd).dedup * 3 := by
    unfold futureStake at hstake
    rw [totalEligibleStake_of_snapshot h.powerSnapshot,
      voterStake_of_snapshot h.powerSnapshot, ← total_weighted] at hstake
    exact hstake
  have hnodup := nodup_dedup (e.futureKeys.map Prod.snd)
  refine ⟨_, hnodup, hthird, ?_, ?_, ?_⟩
  · intro k hk
    obtain ⟨⟨r, k'⟩, hmem, rfl⟩ := mem_map.mp (mem_dedup.mp hk)
    obtain ⟨hlt, hhas⟩ := mem_futureKeys.mp hmem
    refine ⟨r, hlt, le_maxRound_of_mem hmem, hhas, ?_⟩
    intro hcorrect
    rcases voted_append.mp (h.voted hhas hcorrect) with hold | hnew
    · exact hold
    · exact absurd (hmore _ r hnew) (h.ne_own hpast hlt hhas)
  · obtain ⟨k, hmem⟩ := exists_vote_maxRound hmax
    refine ⟨k, mem_dedup.mpr (mem_map.mpr ⟨_, hmem, rfl⟩), ?_⟩
    exact (mem_futureKeys.mp hmem).2
  · obtain ⟨k, hk, hgood⟩ := S.weighted.exists_good hnodup hthird
    exact ⟨k, hk, (Bool.not_eq_false' _).mp hgood⟩

/-- Why a round may be entered. -/
def Driven (S : Setting) (e : ConsensusEngine) (log : List ConsensusAction) (a R : UInt32) : Prop :=
  a < R ∧ (R = a + 1 ∨ S.Overtaken e log a R)

/-- The state of a call under way: `e₀` and `log` are what it started with, `more` is what it has
    sent, `e` is where it is. -/
structure UnderWay (S : Setting) (pk : Pubkey) (e₀ : ConsensusEngine) (log : List ConsensusAction)
    (e : ConsensusEngine) (more : List ConsensusAction) : Prop where
  linked : Linked S (log ++ more) pk e
  own : ∀ k r, Voted more k r → k = pk
  past : (MAX_ROUND, 0) ∉ e.advances → e.OwnPast
  entered : ∃ new, e.advances = e₀.advances ++ new
    ∧ ((MAX_ROUND, 0) ∉ e.advances → ∀ a R, (a, R) ∈ new → S.Driven e log a R)

/-- One move of the call. -/
theorem UnderWay.step {env ev} (h : S.UnderWay pk e₀ log e more)
    (hs : Step env e ev e') (hev : S.UnforgedEvent (log ++ more) ev) :
    S.UnderWay pk e₀ log e' (more ++ ev.output) where
  linked := by
    rw [← append_assoc]
    exact h.linked.step hs hev
  own := by
    intro k r hv
    rcases voted_append.mp hv with hold | ⟨bh, hnew⟩ | ⟨bh, hnew⟩
    · exact h.own k r hold
    · exact (prevoted_output hs hnew).1.trans h.linked.validatorPubkey
    · exact (precommitted_output hs hnew).1.trans h.linked.validatorPubkey
  past := by
    intro hmax
    exact hs.ownPast hmax (h.past fun hmem => hmax (hs.advances_subset _ hmem))
  entered := by
    obtain ⟨new, hnew, hdriven⟩ := h.entered
    have hmono : ∀ a R, S.Driven e log a R → S.Driven e' log a R := fun a R hd =>
      ⟨hd.1, hd.2.imp_right (.mono fun r k => hs.hasVote_mono)⟩
    rcases hs.advances_cases with heq | heq | ⟨hskips, heq⟩
    · grind
    · -- the next round
      refine ⟨new ++ [(e.round, e.round + 1)], by rw [heq, hnew, append_assoc], ?_⟩
      intro hmax a R hmem
      rw [heq] at hmax
      rcases mem_append.mp hmem with hold | hlast
      · exact hmono a R (hdriven (fun hm => hmax (mem_append_left _ hm)) a R hold)
      · obtain ⟨rfl, rfl⟩ := Prod.mk.inj (mem_singleton.mp hlast)
        refine ⟨lt_succ_round ?_, .inl rfl⟩
        intro hwrap
        apply hmax
        rw [hwrap]
        exact mem_append_right _ (mem_singleton_self _)
    · -- a skip, decided on what the engine had counted before it
      refine ⟨new ++ [(e.round, e.maxRound)], by rw [heq, hnew, append_assoc], ?_⟩
      intro hmax a R hmem
      rw [heq] at hmax
      have hmax₀ : (MAX_ROUND, 0) ∉ e.advances := fun hm => hmax (mem_append_left _ hm)
      rcases mem_append.mp hmem with hold | hlast
      · exact hmono a R (hdriven hmax₀ a R hold)
      · obtain ⟨rfl, rfl⟩ := Prod.mk.inj (mem_singleton.mp hlast)
        have hover := h.linked.overtaken h.own (h.past hmax₀) hskips
        exact hmono _ _ ⟨lt_maxRound hskips.2.1, .inr hover⟩

/-- Along a run, an engine that has not wrapped has signed nothing above its round. -/
theorem Moves.ownPast (h : S.Moves System.init s) :
    ∀ pk e, s.engines pk = some e → (MAX_ROUND, 0) ∉ e.advances → e.OwnPast := by
  induction h with
  | refl => intro pk e he; exact nomatch he
  | tail hprev hm ih =>
    intro pk e he _
    cases hm with
    | start pk' e₁ hcorrect hnone hid =>
      by_cases hpk : pk = pk'
      · subst hpk
        rw [System.engines_update_self] at he
        cases he
        rintro r (hr | hr)
        · exact absurd rfl hr
        · exact absurd rfl hr
      · grind [System.engines_update_ne]
    | step pk' e₁ env ev e₂ hcorrect he₁ hstep hev =>
      grind [System.engines_update_self, Step.ownPast, Step.advances_subset, System.engines_update_ne]

/-- **Round numbers are driven by correct validators**, up to how far: whenever a call takes a
    correct engine from round `a` to round `R`, then `R` is `a + 1`, or before the call voters with
    more than 1/3 of the stake, correct ones among them, were above `a`. -/
theorem rounds_driven_by_correct {s s' : System} (hrun : S.Run s) (hnext : S.Next s s')
    {pk : Pubkey} {e e' : ConsensusEngine} (he : s.engines pk = some e)
    (he' : s'.engines pk = some e') (hmax : (MAX_ROUND, 0) ∉ e'.advances) :
    ∃ new, e'.advances = e.advances ++ new
      ∧ ∀ a R, (a, R) ∈ new → a < R ∧ (R = a + 1 ∨ S.Overtaken e' s.log a R) := by
  have hinv := Moves.inv hrun.moves inv_init
  -- an engine that the step does not call enters no round
  have hsame : s'.engines pk = s.engines pk → ∃ new, e'.advances = e.advances ++ new
      ∧ ∀ a R, (a, R) ∈ new → a < R ∧ (R = a + 1 ∨ S.Overtaken e' s.log a R) := by
    intro heq
    obtain rfl := Option.some.inj (he.symm.trans (heq.symm.trans he'))
    exact ⟨[], (List.append_nil _).symm, fun a R hmem => absurd hmem List.not_mem_nil⟩
  cases hnext with
  | start pk' e₁ hcorrect hnone hid =>
    by_cases hpk : pk = pk'
    · subst hpk
      rw [hnone] at he
      exact nomatch he
    · exact hsame (System.engines_update_ne _ _ _ hpk)
  | call pk' e₁ env op hcorrect he₁ hset hpool hdel =>
    by_cases hpk : pk = pk'
    · subst hpk
      obtain rfl := Option.some.inj (he.symm.trans he₁)
      rw [System.engines_update_self] at he'
      cases he'
      have hlinked := hinv.linked pk e he
      obtain ⟨evs, htr, -, hallow⟩ := op.run_does env hlinked.blocks
      have hstart : S.UnderWay pk e s.log e [] := by
        refine ⟨by rwa [List.append_nil], ?_, Moves.ownPast hrun.moves pk e he, ?_⟩
        · rintro k r (⟨bh, v, hv, -⟩ | ⟨bh, v, hv, -⟩)
          · exact absurd hv List.not_mem_nil
          · exact absurd hv List.not_mem_nil
        · exact ⟨[], (List.append_nil _).symm, fun _ a R hmem => absurd hmem List.not_mem_nil⟩
      have hstep : ∀ e₁ ev e₂ more, Step env e₁ ev e₂ →
          (ev.Internal ∨ op.Takes e ev) → S.UnderWay pk e s.log e₁ more →
          S.UnderWay pk e s.log e₂ (more ++ ev.output) := by
        intro e₁ ev e₂ more hs hev hI
        have hunforged := unforgedEvent_of_delivers hdel hev
        exact hI.step hs (hunforged.mono fun a ha => List.mem_append_left _ ha)
      have hend := Trace.invariant_outputs hstep htr [] hallow hstart
      obtain ⟨new, hnew, hdriven⟩ := hend.entered
      exact ⟨new, hnew, hdriven hmax⟩
    · exact hsame (System.engines_update_ne _ _ _ hpk)

end Setting

/-- Validator 2 times out of round 0 and prevotes nil at round 1; the adversary 1 prevotes nil at
    round 1000, and 3 has received that. -/
def farScript [Crypto] : List (Pubkey × Op) :=
  [(⟨2⟩, .onTimeout .Propose 0), (⟨2⟩, .onTimeout .Prevote 0), (⟨2⟩, .onTimeout .Precommit 0),
   (⟨2⟩, .onTimeout .Propose 1),
   (⟨3⟩, .onPrevote (overflowSetting.prevoteBy ⟨1⟩ 1000 none))]

/-- Then 3 receives the prevote of 2. -/
def farOp [Crypto] : Op := .onPrevote (overflowSetting.prevoteBy ⟨2⟩ 1 none)

/-- A vote at a round below `R`, if it is a vote. -/
def votesBelow (R : UInt32) : ConsensusAction → Bool
  | .BroadcastPrevote v => decide (v.round < R)
  | .BroadcastPrecommit v => decide (v.round < R)
  | _ => true

theorem lt_of_votesBelow (h : log.all (votesBelow R) = true) (hv : Voted log k r) : r < R := by
  rw [all_eq_true] at h
  rcases hv with ⟨bh, v, hmem, -, rfl, -⟩ | ⟨bh, v, hmem, -, rfl, -⟩
  · exact of_decide_eq_true (h _ hmem)
  · exact of_decide_eq_true (h _ hmem)

/-- The call takes 3 from round 0 to round 1000, where no correct validator has been. -/
def farSkip [Crypto] (s : System) : Bool :=
  (s.engines ⟨3⟩).any fun e =>
    decide ((farOp.run (overflowSetting.env 0) e).2.advances = e.advances ++ [(0, 1000)]
      ∧ (MAX_ROUND, 0) ∉ (farOp.run (overflowSetting.env 0) e).2.advances)
    && s.log.all (votesBelow 1000) && overflowSetting.sent s.log farOp

theorem exists_farSkip [Crypto] (h : farSkip s = true) :
    ∃ e e' s', s.engines ⟨3⟩ = some e ∧ overflowSetting.Next s s' ∧ s'.engines ⟨3⟩ = some e'
      ∧ e'.advances = e.advances ++ [(0, 1000)] ∧ (MAX_ROUND, 0) ∉ e'.advances
      ∧ ∀ k r, Voted s.log k r → r < 1000 := by
  unfold farSkip at h
  cases he : s.engines ⟨3⟩ with
  | none =>
    rw [he] at h
    exact absurd h Bool.false_ne_true
  | some e =>
    rw [he, Option.any_some, Bool.and_eq_true, Bool.and_eq_true] at h
    obtain ⟨⟨hadv, hlog⟩, hsent⟩ := h
    obtain ⟨hadv, hmax⟩ := of_decide_eq_true hadv
    refine ⟨e, _, _, rfl, .call ⟨3⟩ e (overflowSetting.env 0) farOp (by decide) he rfl rfl
      (Setting.delivers_of_sent hsent), System.engines_update_self .., hadv, hmax, ?_⟩
    intro k r hv
    exact lt_of_votesBelow hlog hv

/-- With 3 of 10 the adversary sends a correct engine from round 0 to round 1000. -/
theorem adversary_names_round : ∃ (_ : Crypto) (S : Setting) (s s' : System) (pk : Pubkey)
    (e e' : ConsensusEngine) (a R : UInt32), S.Run s ∧ S.Next s s' ∧ s.engines pk = some e
      ∧ s'.engines pk = some e' ∧ e'.advances = e.advances ++ [(a, R)] ∧ 0 < R ∧ R - 1 ≠ a
      ∧ ∀ k r, S.correct k = true → Voted s.log k r → r < R := by
  let _ : Crypto := Crypto.plain
  obtain ⟨s, hrun, hfar, -⟩ := Setting.exists_run_of_plays (S := overflowSetting) 0 [⟨2⟩, ⟨3⟩]
    farScript farSkip (by decide) (by decide) (by decide +kernel)
  obtain ⟨e, e', s', he, hnext, he', hadv, -, hbelow⟩ := exists_farSkip hfar
  exact ⟨Crypto.plain, overflowSetting, s, s', ⟨3⟩, e, e', 0, 1000, hrun, hnext, he, he', hadv,
    by decide, by decide, fun k r _ => hbelow k r⟩

/-- Still, a correct validator was ahead of it. -/
theorem rounds_driven_by_correct_far : ∃ (_ : Crypto) (s : System) (e' : ConsensusEngine),
    overflowSetting.Overtaken e' s.log 0 1000 := by
  let _ : Crypto := Crypto.plain
  obtain ⟨s, hrun, hfar, -⟩ := Setting.exists_run_of_plays (S := overflowSetting) 0 [⟨2⟩, ⟨3⟩]
    farScript farSkip (by decide) (by decide) (by decide +kernel)
  obtain ⟨e, e', s', he, hnext, he', hadv, hmax, -⟩ := exists_farSkip hfar
  obtain ⟨new, hnew, hdriven⟩ := Setting.rounds_driven_by_correct hrun hnext he he' hmax
  have hlast : new = [(0, 1000)] := List.append_cancel_left (hnew.symm.trans hadv)
  rw [hlast] at hdriven
  obtain ⟨-, hnext' | hover⟩ := hdriven 0 1000 List.mem_cons_self
  · exact absurd hnext' (by decide)
  · exact ⟨Crypto.plain, s, e', hover⟩

end Lichen
