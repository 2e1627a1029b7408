/-
  Agreement: no two correct engines commit different blocks at one height.

  The argument is Tendermint's.  Suppose `V` is committed at round `r₀`: validators with 2/3 of the
  stake have precommitted it there.  A correct one among them locked on `V` at `r₀` and prevotes
  another block at a later round only if it has seen a polka for that block at a round above its
  lock.  The first such polka would need a correct member of the quorum among its voters, who would
  have prevoted the other block before: there is no first one.  So later polkas are for `V`, and
  with them later locks, precommits and commits.

  Two things have to be kept out.  `start_round(round + 1)` wraps from `u32::MAX` to 0 in a release
  build, and one adversarial vote for `u32::MAX` is enough to get engines there; rounds then start
  over, with the old votes still in the tallies.  And nil is signed as the zero hash, so a block
  with that hash would be voted for by everyone who votes nil.  Under the first, two correct
  engines do commit different blocks (`agreement_fails_after_overflow`).
-/
import Lichen.Validator.Network

open Base
namespace Lichen
open List ConsensusEngine

/-- The largest round number. -/
def MAX_ROUND : UInt32 := UInt32.ofNat (2 ^ 32 - 1)

instance pairLawful : LawfulBEq (UInt32 × UInt32) := inferInstance

namespace ConsensusEngine

/-- The engine never stepped past the largest round, and holds no block whose hash is the encoding
    of nil. -/
structure Sane (e : ConsensusEngine) : Prop where
  noOverflow : (MAX_ROUND, 0) ∉ e.advances
  noNilBlock : e.proposalBlocks.get Hash.zero = none

instance (e : ConsensusEngine) : Decidable e.Sane :=
  decidable_of_iff ((MAX_ROUND, 0) ∉ e.advances ∧ e.proposalBlocks.get Hash.zero = none)
    ⟨fun h => ⟨h.1, h.2⟩, fun h => ⟨h.1, h.2⟩⟩

section
variable {env : Env} {e e' : ConsensusEngine} {ev : Event}

/-! ## Rounds only grow -/

theorem le_foldl_max (l : List (UInt32 × Pubkey)) :
    ∀ m : UInt32, m ≤ l.foldl (fun m k => if m < k.1 then k.1 else m) m := by
  induction l with
  | nil => intro m; exact UInt32.le_refl m
  | cons k l ih =>
    grind

theorem le_maxRound (e : ConsensusEngine) : e.round ≤ e.maxRound := le_foldl_max _ _

/-- A skip goes up. -/
theorem lt_maxRound (h : e.maxRound ≠ e.round) : e.round < e.maxRound := by
  grind [le_maxRound]

theorem lt_succ_round (h : e.round ≠ MAX_ROUND) : e.round < e.round + 1 := by
  have hne : e.round.toNat ≠ 2 ^ 32 - 1 := by
    intro heq
    apply h
    apply UInt32.toNat_inj.mp
    rw [heq]
    rfl
  have hlt := e.round.toNat_lt
  rw [UInt32.lt_iff_toNat_lt, UInt32.toNat_add]
  simp only [UInt32.reduceToNat]
  omega

variable [Crypto]

section
variable (h : Step env e ev e')
include h

/-- A move either keeps the round, or enters a higher one, or wraps. -/
theorem Step.round_cases : (e'.round = e.round ∧ e'.advances = e.advances)
      ∨ (e.round < e'.round ∧ e'.step = .Propose ∧ e'.advances = e.advances ++ [(e.round, e'.round)])
      ∨ (e.round = MAX_ROUND ∧ e'.advances = e.advances ++ [(MAX_ROUND, 0)]) := by
  cases h with
  | advance hstep hwhy =>
    by_cases hmax : e.round = MAX_ROUND
    · refine .inr (.inr ⟨hmax, ?_⟩)
      show e.advances ++ [(e.round, e.round + 1)] = _
      rw [hmax]
      rfl
    · exact .inr (.inl ⟨lt_succ_round hmax, rfl, rfl⟩)
  | skip htotal hmax hstake => exact .inr (.inl ⟨lt_maxRound hmax, rfl, rfl⟩)
  | _ => exact .inl ⟨rfl, rfl⟩

/-- Blocks are never dropped within a height. -/
theorem Step.blocks_mono (k : Hash) (hk : e'.proposalBlocks.get k = none) :
    e.proposalBlocks.get k = none := by
  have hput : ∀ b : Block, (e.proposalBlocks.put b.hash b).get k = none →
      e.proposalBlocks.get k = none := by
    intro b hget
    rw [HashMap.get_put] at hget
    split at hget
    · exact nomatch hget
    · exact hget
  cases h with
  | store p => exact hput p.block hk
  | propose fresh block vr => exact hput block hk
  | _ => exact hk

/-- A sane engine was sane all along. -/
theorem Step.sane_back (hs : e'.Sane) : e.Sane := by
  refine ⟨?_, h.blocks_mono _ hs.noNilBlock⟩
  intro _
  apply hs.noOverflow
  rcases h.round_cases with ⟨-, heq⟩ | ⟨-, -, heq⟩ | ⟨-, heq⟩ <;> grind

theorem Step.round_le (hs : e'.Sane) : e.round ≤ e'.round := by
  grind [round_cases, Sane.noOverflow]

end

/-! ## The order of one engine's votes -/

/-- Precommits are signed at rounds not above ours, and one at ours only once we are past the
    prevotes; proposals are stored with their block; the lock has a round iff it has a value. -/
structure Orderly (e : ConsensusEngine) : Prop where
  precommits : ∀ r, e.precommits.signedRounds.get r ≠ none →
    r ≤ e.round ∧ (r = e.round → e.step = .Precommit ∨ e.step = .Commit)
  proposals : ∀ r p, e.proposals.get r = some p → e.proposalBlocks.get p.block.hash ≠ none
  lock : e.lockedRound = none ↔ e.lockedValue = none

/-- Storing a proposal keeps proposals with their blocks. -/
theorem storeProposal_stored
    (h : ∀ r q, e.proposals.get r = some q → e.proposalBlocks.get q.block.hash ≠ none) :
    ∀ r q, (e.storeProposal p).proposals.get r = some q →
      (e.storeProposal p).proposalBlocks.get q.block.hash ≠ none := by
  intro r q hget
  show (e.proposalBlocks.put p.block.hash p.block).get q.block.hash ≠ none
  have hput : (e.proposals.put p.round p).get r = some q := hget
  grind

/-- One move keeps an engine's votes in order. -/
theorem Step.orderly (h : Step env e ev e') (hs : e'.Sane) (ho : e.Orderly) : e'.Orderly := by
  -- entering a higher round leaves every signed round behind
  have hhigher : ∀ r', e.round < r' → ∀ r, e.precommits.signedRounds.get r ≠ none →
      r ≤ r' ∧ (r = r' → (RoundStep.Propose = .Precommit ∨ RoundStep.Propose = .Commit)) := by
    intro r' hlt r hr
    have hle := (ho.precommits r hr).1
    refine ⟨UInt32.le_trans hle (UInt32.le_of_lt hlt), ?_⟩
    rintro rfl
    exact absurd (UInt32.lt_of_lt_of_le hlt hle) (UInt32.lt_irrefl _)
  cases h with
  | store p => exact ⟨ho.precommits, storeProposal_stored ho.proposals, ho.lock⟩
  | propose fresh block vr => exact ⟨ho.precommits, storeProposal_stored ho.proposals, ho.lock⟩
  | recvPrecommit v power =>
    refine ⟨?_, ho.proposals, ho.lock⟩
    intro r hr
    exact ho.precommits r hr
  | prevote bh hstep =>
    refine ⟨?_, ho.proposals, ho.lock⟩
    grind [Orderly.precommits, recordOwnPrevote, setStep]
  | lock bh =>
    refine ⟨fun r hr => ⟨(ho.precommits r hr).1, fun _ => .inl rfl⟩, ho.proposals, ?_⟩
    exact iff_of_false (Option.some_ne_none _) (Option.some_ne_none _)
  | toPrecommit =>
    exact ⟨fun r hr => ⟨(ho.precommits r hr).1, fun _ => .inl rfl⟩, ho.proposals, ho.lock⟩
  | precommit bh hstep =>
    refine ⟨?_, ho.proposals, ho.lock⟩
    intro r hr
    simp only [recordOwnPrecommit, VoteTally.signedRounds_record] at hr
    by_cases hcur : r = e.round
    · subst hcur
      exact ⟨UInt32.le_refl _, fun _ => .inl hstep⟩
    · have hr' : (e.precommits.signedRounds.put e.round bh).get r ≠ none := hr
      rw [HashMap.get_put_ne _ _ hcur] at hr'
      exact ⟨(ho.precommits r hr').1, fun heq => absurd heq hcur⟩
  | commitOwn bh block =>
    exact ⟨fun r hr => ⟨(ho.precommits r hr).1, fun _ => .inr rfl⟩, ho.proposals, ho.lock⟩
  | commitNetwork round bh block =>
    exact ⟨fun r hr => ⟨(ho.precommits r hr).1, fun _ => .inr rfl⟩, ho.proposals, ho.lock⟩
  | advance hstep hwhy =>
    have hne : e.round ≠ MAX_ROUND := by
      intro hmax
      apply hs.noOverflow
      show (MAX_ROUND, 0) ∈ e.advances ++ [(e.round, e.round + 1)]
      rw [hmax]
      exact mem_append_right _ (mem_singleton_self _)
    exact ⟨hhigher _ (lt_succ_round hne), ho.proposals, ho.lock⟩
  | skip htotal hmax => exact ⟨hhigher _ (lt_maxRound hmax), ho.proposals, ho.lock⟩
  | _ => exact ⟨ho.precommits, ho.proposals, ho.lock⟩

/-- The lock only changes on a polka at our round. -/
theorem Step.lock_cases (h : Step env e ev e') :
    (∃ bh, e.step = .Prevote ∧ e.Quorum env e.prevotes (e.round, some bh)
        ∧ e'.lockedRound = some e.round ∧ e'.lockedValue = some bh)
      ∨ (e'.lockedRound = e.lockedRound ∧ e'.lockedValue = e.lockedValue) := by
  cases h with
  | lock bh hstep hpolka => exact .inl ⟨bh, hstep, hpolka, rfl, rfl⟩
  | _ => exact .inr ⟨rfl, rfl⟩

/-- What a locked engine prevotes: the value it is locked on, or one with a polka above the lock. -/
theorem mayPrevote_of_locked (hmay : e.MayPrevote env bh)
    (hlr : e.lockedRound = some lr) (hlv : e.lockedValue = some lv) :
    lv = bh ∨ ∃ vr, lr < vr ∧ e.hasPolkaFor env vr (some bh) = true := by
  obtain ⟨p, -, -, -, -, hwhy⟩ := hmay
  grind [shouldPrevoteProposalBlock]

end
end ConsensusEngine

/-- `Sane`, for the engines of these keys. -/
def System.saneAt (s : System) (ks : List Pubkey) : Bool :=
  ks.all fun k => (s.engines k).all fun e => decide e.Sane

namespace Setting

variable {S : Setting}

/-! ## Along a run -/

/-- Every engine is sane. -/
def AllSane (s : System) : Prop := ∀ pk e, s.engines pk = some e → e.Sane

variable {s : System}

theorem allSane_of_saneAt (h : s.saneAt ks = true)
    (hnone : ∀ pk, pk ∉ ks → s.engines pk = none) : AllSane s := by
  intro pk e he
  by_cases hpk : pk ∈ ks
  · have hall := all_eq_true.mp h pk hpk
    rw [he] at hall
    exact of_decide_eq_true hall
  · rw [hnone pk hpk] at he
    exact nomatch he

variable [Crypto]

/-- The engine of `pk` after a move: unchanged, with nothing new under its key, or moved. -/
theorem Move.engine (h : Move S s s') (hI : Inv S s) (he : s.engines pk = some e) :
    (s'.engines pk = some e ∧ (∀ r bh, Prevoted s'.log pk r bh → Prevoted s.log pk r bh)
        ∧ ∀ r bh, Precommitted s'.log pk r bh → Precommitted s.log pk r bh)
      ∨ ∃ env ev e', s'.engines pk = some e' ∧ Step env e ev e'
        ∧ S.UnforgedEvent s.log ev ∧ s'.log = s.log ++ ev.output := by
  cases h with
  | start pk' e₁ hcorrect hnone hid =>
    have hne : pk ≠ pk' := by
      rintro rfl
      rw [hnone] at he
      exact nomatch he
    have hlog : (s.update pk' (S.started e₁) []).log = s.log := append_nil _
    grind [System.engines_update_ne]
  | step pk' e₁ env ev e₂ hcorrect he₁ hstep hev =>
    by_cases hpk : pk = pk'
    · subst hpk
      obtain rfl := Option.some.inj (he.symm.trans he₁)
      exact .inr ⟨env, ev, e₂, System.engines_update_self .., hstep, hev, rfl⟩
    · have hkey := (hI.linked pk' e₁ he₁).validatorPubkey
      refine .inl ⟨(System.engines_update_ne _ _ _ hpk).trans he, ?_, ?_⟩
      · intro r bh hv
        rcases prevoted_append.mp hv with hv | hv
        · exact hv
        · exact absurd ((prevoted_output hstep hv).1.trans hkey) hpk
      · intro r bh hv
        rcases precommitted_append.mp hv with hv | hv
        · exact hv
        · exact absurd ((precommitted_output hstep hv).1.trans hkey) hpk

theorem Move.allSane_back (h : Move S s s') (hI : Inv S s) (hs : AllSane s') : AllSane s := by
  intro pk e he
  rcases h.engine hI he with ⟨he', -⟩ | ⟨env, ev, e', he', hstep, -⟩
  · exact hs pk e he'
  · exact hstep.sane_back (hs pk e' he')

theorem Moves.allSane_back (h : S.Moves s s') (hI : Inv S s) (hs : AllSane s') : AllSane s := by
  induction h with
  | refl => exact hs
  | tail hprev hm ih => exact ih (hm.allSane_back (Moves.inv hprev hI) hs)

theorem orderly_started (e : ConsensusEngine) : (S.started e).Orderly where
  precommits := fun _ hr => absurd rfl hr
  proposals := fun _ _ hp => nomatch hp
  lock := ⟨fun _ => rfl, fun _ => rfl⟩

/-- Every engine is orderly, as long as all are sane. -/
theorem Moves.orderly (h : S.Moves System.init s) (hs : AllSane s) :
    ∀ pk e, s.engines pk = some e → e.Orderly := by
  induction h with
  | refl => intro pk e he; exact nomatch he
  | @tail s₀ s₁ hprev hm ih =>
    have hord := ih (hm.allSane_back (Moves.inv hprev inv_init) hs)
    intro pk e he
    cases hm with
    | start pk' e₁ hcorrect hnone hid =>
      grind [System.engines_update_self, orderly_started, System.engines_update_ne]
    | step pk' e₁ env ev e₂ hcorrect he₁ hstep hev =>
      by_cases hpk : pk = pk'
      · subst hpk
        have hsane := hs pk e he
        grind [System.engines_update_self, Step.orderly]
      · grind [System.engines_update_ne]

/-- Once an engine is at round `r`, it signs no more precommits below `r`. -/
theorem Moves.precommitted_later (h : S.Moves s s') :
    Inv S s → AllSane s' → ∀ {pk : Pubkey} {e : ConsensusEngine} {r : UInt32} {bh : Option Hash},
      s.engines pk = some e → Precommitted s'.log pk r bh →
      Precommitted s.log pk r bh ∨ e.round ≤ r := by
  induction h using Relation.ReflTransGen.head_induction_on with
  | refl => intro _ _ pk e r bh _ hv; exact .inl hv
  | @head s s₁ hm hrest ih =>
    intro hI hsane pk e r bh he hv
    have hsane₁ := Moves.allSane_back hrest (hm.inv hI) hsane
    rcases hm.engine hI he with ⟨he₁, -, hpc⟩ | ⟨env, ev, e₁, he₁, hstep, -, hlog⟩
    · grind [Move.inv]
    · rcases ih (hm.inv hI) hsane he₁ hv with hv₁ | hle
      · rw [hlog] at hv₁
        rcases precommitted_append.mp hv₁ with hv₁ | hv₁
        · exact .inl hv₁
        · obtain ⟨-, hr, -⟩ := precommitted_output hstep hv₁
          right
          rw [hr]
          exact UInt32.le_refl _
      · exact .inr (UInt32.le_trans (hstep.round_le (hsane₁ pk e₁ he₁)) hle)

/-! ## Every precommit has its polka, every commit its quorum -/

variable {r : UInt32}

section
omit [Crypto]

theorem Polka.mono (hsub : ∀ a ∈ log, a ∈ log') (h : S.Polka log r bh) : S.Polka log' r bh := by
  obtain ⟨l, hq, hl⟩ := h
  refine ⟨l, hq, fun k hk hc => ?_⟩
  obtain ⟨v, hv, hrest⟩ := hl k hk hc
  exact ⟨v, hsub _ hv, hrest⟩

theorem CommitQuorum.mono
    (hsub : ∀ a ∈ log, a ∈ log') (h : S.CommitQuorum log r bh) : S.CommitQuorum log' r bh := by
  obtain ⟨l, hq, hl⟩ := h
  refine ⟨l, hq, fun k hk hc => ?_⟩
  obtain ⟨v, hv, hrest⟩ := hl k hk hc
  exact ⟨v, hsub _ hv, hrest⟩

end

/-- The log explains itself. -/
structure Justified (S : Setting) (log : List ConsensusAction) : Prop where
  precommit : ∀ k r bh, bh ≠ Hash.zero → Precommitted log k r (some bh) → S.Polka log r bh
  commit : ∀ h r b bh, .CommitBlock h r b bh ∈ log → bh ≠ Hash.zero ∧ S.CommitQuorum log r bh

theorem Move.justified (h : Move S s s') (hI : Inv S s) (hs : AllSane s)
    (hj : Justified S s.log) : Justified S s'.log := by
  cases h with
  | start pk e hcorrect hnone hid =>
    rw [show (s.update pk (S.started e) []).log = s.log from append_nil _]
    exact hj
  | step pk e env ev e₁ hcorrect he hstep hev =>
    have hlink := hI.linked pk e he
    have hsub : ∀ a ∈ s.log, a ∈ s.log ++ ev.output := fun a ha => mem_append_left _ ha
    constructor
    · intro k r bh hz hv
      rcases precommitted_append.mp hv with hv | hv
      · exact (hj.precommit k r bh hz hv).mono hsub
      · obtain ⟨-, -, hpolka⟩ := precommitted_guard hstep hv
        exact (hlink.polka hz hpolka).mono hsub
    · intro h r b bh hmem
      rcases mem_append.mp hmem with hmem | hmem
      · obtain ⟨hz, hq⟩ := hj.commit h r b bh hmem
        exact ⟨hz, hq.mono hsub⟩
      · obtain ⟨block, -, -, hquorum, hblock⟩ := hstep.commit_output hmem
        have hz : bh ≠ Hash.zero := by
          rintro rfl
          rw [(hs pk e he).noNilBlock] at hblock
          exact nomatch hblock
        exact ⟨hz, (hlink.commitQuorum hz hquorum).mono hsub⟩

theorem Moves.justified (h : S.Moves System.init s) (hs : AllSane s) : Justified S s.log := by
  induction h with
  | refl =>
    constructor
    · rintro k r bh - ⟨v, hv, -⟩
      exact absurd hv not_mem_nil
    · intro h r b bh hmem
      exact absurd hmem not_mem_nil
  | tail hprev hm ih =>
    have hI := Moves.inv hprev inv_init
    have hs₀ := hm.allSane_back hI hs
    exact hm.justified hI hs₀ (ih hs₀)

/-! ## The lock argument -/

/-- What holds at every point of a run that ends with `V` committed at `r₀`; `log` is the log at
    its end. -/
structure Locked (S : Setting) (log : List ConsensusAction) (r₀ : UInt32) (V : Hash) (s : System) :
    Prop where
  /-- the correct validators of the quorum prevote no other block after `r₀` -/
  prevotes : ∀ k r X, S.correct k = true → Precommitted log k r₀ (some V) → r₀ < r →
    Prevoted s.log k r (some X) → X = V
  /-- once they have precommitted `V`, they are locked at `r₀` or above: on `V`, or on the
      encoding of nil, which nothing is proposed for -/
  locks : ∀ k e, s.engines k = some e → Precommitted s.log k r₀ (some V) →
    ∃ lr lv, e.lockedRound = some lr ∧ e.lockedValue = some lv ∧ r₀ ≤ lr
      ∧ (lv = V ∨ lv = Hash.zero)

section
omit [Crypto]

theorem correct_of_not_bad (h : S.weighted.bad k = false) : S.correct k = true := by
  simpa [weighted] using h

/-- A polka after `r₀` is for `V`. -/
theorem Locked.polka_eq (h : Locked S log r₀ V s) (hq : S.CommitQuorum log r₀ V) (hr : r₀ < r)
    (hp : S.Polka s.log r X) : X = V := by
  obtain ⟨l, hl, hpc⟩ := hq
  obtain ⟨l', hl', hpv⟩ := hp
  obtain ⟨k, hk, hk', hgood⟩ := hl.exists_common hl'
  grind [correct_of_not_bad, prevotes]

end

/-- **The lock argument, one move.** -/
theorem Move.locked (hm : Move S s s₁) (hrest : S.Moves s₁ t) (hI : Inv S s) (hsane : AllSane t)
    (hord : ∀ pk e, s.engines pk = some e → e.Orderly) (hq : S.CommitQuorum t.log r₀ V)
    (h : Locked S t.log r₀ V s) : Locked S t.log r₀ V s₁ := by
  have hmoves : S.Moves s t := Relation.ReflTransGen.head hm hrest
  have hsane₀ := Moves.allSane_back hmoves hI hsane
  constructor
  · intro k r X hcorrect hpc hr hv
    by_cases hold : Prevoted s.log k r (some X)
    · exact h.prevotes k r X hcorrect hpc hr hold
    · -- a new prevote, by an engine that has left `r₀`: it had precommitted `V` before
      cases he : s.engines k with
      | none =>
        cases hm with
        | start pk e hc hnone hid =>
          rw [show (s.update pk (S.started e) []).log = s.log from append_nil _] at hv
          exact absurd hv hold
        | step pk e env ev e₁ hc he' hstep hev =>
          rcases prevoted_append.mp hv with hv | hv
          · exact absurd hv hold
          · rw [(prevoted_output hstep hv).1, (hI.linked pk e he').validatorPubkey, he'] at he
            exact nomatch he
      | some e =>
        rcases hm.engine hI he with ⟨-, hsame, -⟩ | ⟨env, ev, e', -, hstep, -, hlog⟩
        · exact absurd (hsame r _ hv) hold
        · rw [hlog] at hv
          have hnew := (prevoted_append.mp hv).resolve_left hold
          obtain ⟨-, rfl, -⟩ := prevoted_output hstep hnew
          have hmay := prevoted_guard hstep hnew
          have hbefore : Precommitted s.log k r₀ (some V) := by
            rcases Moves.precommitted_later hmoves hI hsane he hpc with hbefore | hle
            · exact hbefore
            · exact absurd (UInt32.lt_of_lt_of_le hr hle) (UInt32.lt_irrefl _)
          obtain ⟨lr, lv, hlr, hlv, hle, hval⟩ := h.locks k e he hbefore
          have hlink := hI.linked k e he
          -- the proposal's block is stored, so its hash is not the encoding of nil
          have hz : X ≠ Hash.zero := by
            obtain ⟨p, hp, -, -, rfl, -⟩ := hmay
            intro hzero
            have hstored := (hord k e he).proposals _ p hp
            rw [hzero, (hsane₀ k e he).noNilBlock] at hstored
            exact hstored rfl
          rcases mayPrevote_of_locked hmay hlr hlv with rfl | ⟨vr, hvr, hpolka⟩
          · exact hval.resolve_right hz
          · have hquorum := quorum_of_hasPolkaFor hlink.powerSnapshot
              (hlink.tally.countedPrevotes _ hlink.powerSnapshot) hpolka
            exact h.polka_eq hq (UInt32.lt_of_le_of_lt hle hvr) (hlink.polka hz hquorum)
  · intro k e' he' hpc
    cases he : s.engines k with
    | none =>
      -- a validator that has just started has precommitted nothing
      cases hm with
      | start pk e hc hnone hid =>
        rw [show (s.update pk (S.started e) []).log = s.log from append_nil _] at hpc
        exact absurd hpc ((hI.silent k he).2 _ _)
      | step pk e env ev e₁ hc hepk hstep hev =>
        grind [System.engines_update_ne]
    | some e =>
      rcases hm.engine hI he with ⟨he₁, -, hsame⟩ | ⟨env, ev, e₁, he₁, hstep, -, hlog⟩
      · grind [Locked.locks]
      · obtain rfl := Option.some.inj (he'.symm.trans he₁)
        have hlink := hI.linked k e he
        rw [hlog] at hpc
        rcases precommitted_append.mp hpc with hold | hnew
        · rcases hstep.lock_cases with ⟨bh, hst, hquorum, hlr, hlv⟩ | ⟨hlr, hlv⟩
          · -- a new lock, past `r₀`: the round of the precommit is behind
            have hsigned := hlink.ownPrecommit _ _ hold
            obtain ⟨hle, hcur⟩ := (hord k e he).precommits r₀ (by rw [hsigned]; exact Option.some_ne_none _)
            have hlt : r₀ < e.round := by
              rcases UInt32.lt_or_eq_of_le hle with hlt | -
              · exact hlt
              · grind
            refine ⟨e.round, bh, hlr, hlv, hle, ?_⟩
            by_cases hz : bh = Hash.zero
            · exact .inr hz
            · exact .inl (h.polka_eq hq hlt (hlink.polka hz hquorum))
          · rw [hlr, hlv]
            exact h.locks k e he hold
        · -- it precommits `V` right now, and is locked on it
          obtain ⟨hlr, hlv, -⟩ := precommitted_guard hstep hnew
          obtain ⟨-, -, hev⟩ := precommitted_output hstep hnew
          rcases hstep.lock_cases with ⟨bh, hst, -⟩ | ⟨hlr', hlv'⟩
          · exfalso
            cases hstep with
            | precommit bh' hst' => rw [hst] at hst'; exact nomatch hst'
            | _ => exact nomatch hev
          · exact ⟨r₀, V, hlr'.trans hlr, hlv'.trans hlv, UInt32.le_refl _, .inl rfl⟩

theorem Moves.locked (h : S.Moves System.init s) :
    S.Moves s t → AllSane t → S.CommitQuorum t.log r₀ V → Locked S t.log r₀ V s := by
  induction h with
  | refl =>
    intro _ _ _
    constructor
    · rintro k r X - - - ⟨v, hv, -⟩
      exact absurd hv not_mem_nil
    · intro k e he
      exact nomatch he
  | tail hprev hm ih =>
    intro hrest hsane hq
    have hI := Moves.inv hprev inv_init
    have hmoves := Relation.ReflTransGen.head hm hrest
    exact hm.locked hrest hI hsane
      (Moves.orderly hprev (Moves.allSane_back hmoves hI hsane)) hq (ih hmoves hsane hq)

/-- Two commit quorums of one round are for one block: a correct validator in both signs one
    precommit a round. -/
theorem CommitQuorum.eq_of_round (hI : Inv S s)
    (hv : S.CommitQuorum s.log r V) (hw : S.CommitQuorum s.log r W) : V = W := by
  obtain ⟨l, hl, hpc⟩ := hv
  obtain ⟨l', hl', hpc'⟩ := hw
  obtain ⟨k, hk, hk', hgood⟩ := hl.exists_common hl'
  have hcorrect := correct_of_not_bad hgood
  have hsent := hpc k hk hcorrect
  cases he : s.engines k with
  | none => exact absurd hsent ((hI.silent k he).2 _ _)
  | some e =>
    have hlink := hI.linked k e he
    have hsame := (hlink.ownPrecommit _ _ hsent).symm.trans
      (hlink.ownPrecommit _ _ (hpc' k hk' hcorrect))
    exact Option.some.inj (Option.some.inj hsame)

/-- A commit quorum at a later round is for the same block: one of its correct members saw a polka
    there. -/
theorem CommitQuorum.eq_of_lt (hm : S.Moves System.init s) (hsane : AllSane s)
    (hr : r < r') (hz : W ≠ Hash.zero)
    (hv : S.CommitQuorum s.log r V) (hw : S.CommitQuorum s.log r' W) : W = V := by
  have hlocked := Moves.locked hm .refl hsane hv
  obtain ⟨l, hl, hpc⟩ := hw
  obtain ⟨k, hk, hgood⟩ := hl.exists_good
  have hpolka := (Moves.justified hm hsane).precommit k r' W hz
    (hpc k hk (correct_of_not_bad hgood))
  exact hlocked.polka_eq hv hr hpolka

end Setting

/-- **Agreement.**  In every run of the network in which no correct engine steps past the largest
    round or stores a block whose hash encodes nil, any two commits are of one block. -/
theorem agreement [Crypto] {S : Setting} {s : System} {h₁ h₂ : UInt64} {r₁ r₂ : UInt32}
    {b₁ b₂ : Block} {bh₁ bh₂ : Hash} (hrun : S.Run s) (hsane : Setting.AllSane s)
    (hc₁ : .CommitBlock h₁ r₁ b₁ bh₁ ∈ s.log) (hc₂ : .CommitBlock h₂ r₂ b₂ bh₂ ∈ s.log) :
    bh₁ = bh₂ := by
  have hm := hrun.moves
  have hj := Setting.Moves.justified hm hsane
  obtain ⟨hz₁, hq₁⟩ := hj.commit _ _ _ _ hc₁
  obtain ⟨hz₂, hq₂⟩ := hj.commit _ _ _ _ hc₂
  by_cases hr : r₁ = r₂
  · subst hr
    exact hq₁.eq_of_round (Setting.Moves.inv hm Setting.inv_init) hq₂
  · rcases UInt32.lt_or_lt_of_ne hr with hlt | hlt
    · exact (hq₁.eq_of_lt hm hsane hlt hz₂ hq₂).symm
    · exact hq₂.eq_of_lt hm hsane hlt hz₁ hq₁

/-- Commits of `bh` at height `h`. -/
def commitsOf (h : UInt64) (bh : Hash) : ConsensusAction → Bool :=
  ConsensusAction.isCommit fun h' _ _ bh' => decide (h' = h ∧ bh' = bh)

theorem exists_commit_of_commitsOf {log : List ConsensusAction}
    (hany : log.any (commitsOf h bh) = true) : ∃ r b, .CommitBlock h r b bh ∈ log := by
  obtain ⟨h', r, b, bh', hmem, hp⟩ := ConsensusAction.exists_commit_of_any hany
  obtain ⟨rfl, rfl⟩ := of_decide_eq_true hp
  exact ⟨r, b, hmem⟩

/-- Validator 1 is the adversary, with 3 of 10. -/
def overflowSetting : Setting where
  validatorSet := .ofStakes [(⟨1⟩, 3), (⟨2⟩, 3), (⟨3⟩, 1), (⟨4⟩, 3)] (by decide)
  stakePool := .ofStakes [(⟨1⟩, 3), (⟨2⟩, 3), (⟨3⟩, 1), (⟨4⟩, 3)]
  minValidatorStake := 1
  signingChainId := ⟨[], nil_short⟩
  height := 1
  correct := fun k => k ≠ ⟨1⟩
  minority := by decide

def overflowScript [Crypto] : List (Pubkey × Op) :=
  let S := overflowSetting
  let W := S.blockBy ⟨2⟩ ⟨1⟩
  let V := S.blockBy ⟨1⟩ ⟨2⟩
  let w := some W.hash
  let v := some V.hash
  [ -- round 0: the leader 2 proposes `W` and locks on it, with the votes of 3 and the adversary
   (⟨2⟩, .createProposal W),
   (⟨3⟩, .onProposal (S.proposalBy ⟨2⟩ 0 W)),
   (⟨2⟩, .onPrevote (S.prevoteBy ⟨3⟩ 0 w)),
   (⟨2⟩, .onPrevote (S.prevoteBy ⟨1⟩ 0 w)),
   (⟨2⟩, .onTimeout .Precommit 0),
   (⟨2⟩, .onTimeout .Propose 1),
   -- the adversary leads the last round; its vote there and one at round 1 make 3 and 4 skip to it
   (⟨3⟩, .onProposal (S.proposalBy ⟨1⟩ MAX_ROUND V)),
   (⟨4⟩, .onProposal (S.proposalBy ⟨1⟩ MAX_ROUND V)),
   (⟨3⟩, .onPrevote (S.prevoteBy ⟨1⟩ MAX_ROUND v)),
   (⟨3⟩, .onPrevote (S.prevoteBy ⟨2⟩ 1 none)),
   (⟨4⟩, .onPrevote (S.prevoteBy ⟨1⟩ MAX_ROUND v)),
   (⟨4⟩, .onPrevote (S.prevoteBy ⟨2⟩ 1 none)),
   -- they decide `V` there, and 3 commits it
   (⟨4⟩, .onPrevote (S.prevoteBy ⟨3⟩ MAX_ROUND v)),
   (⟨3⟩, .onPrevote (S.prevoteBy ⟨4⟩ MAX_ROUND v)),
   (⟨3⟩, .onPrecommit (S.precommitBy ⟨4⟩ MAX_ROUND v 0)),
   (⟨3⟩, .onPrecommit (S.precommitBy ⟨1⟩ MAX_ROUND v 0)),
   -- 4 times out of the last round, is back at round 0, and commits `W` with the votes from there
   (⟨4⟩, .onTimeout .Precommit MAX_ROUND),
   (⟨4⟩, .onTimeout .Propose 0),
   (⟨4⟩, .onProposal (S.proposalBy ⟨2⟩ 0 W)),
   (⟨4⟩, .onPrevote (S.prevoteBy ⟨2⟩ 0 w)),
   (⟨4⟩, .onPrevote (S.prevoteBy ⟨3⟩ 0 w)),
   (⟨4⟩, .onPrevote (S.prevoteBy ⟨1⟩ 0 w)),
   (⟨4⟩, .onPrecommit (S.precommitBy ⟨2⟩ 0 w 0)),
   (⟨4⟩, .onPrecommit (S.precommitBy ⟨1⟩ 0 w 0))]

/-- With the wrap-around, two correct engines commit different blocks. -/
theorem agreement_fails_after_overflow : ∃ (_ : Crypto) (S : Setting) (s : System) (r₁ r₂ : UInt32)
    (b₁ b₂ : Block) (bh₁ bh₂ : Hash), S.Run s ∧ .CommitBlock S.height r₁ b₁ bh₁ ∈ s.log
      ∧ .CommitBlock S.height r₂ b₂ bh₂ ∈ s.log ∧ bh₁ ≠ bh₂ := by
  let _ : Crypto := Crypto.plain
  let V := overflowSetting.blockBy ⟨1⟩ ⟨2⟩
  let W := overflowSetting.blockBy ⟨2⟩ ⟨1⟩
  obtain ⟨s, hrun, hcommits, -⟩ := Setting.exists_run_of_plays (S := overflowSetting) 0
    [⟨2⟩, ⟨3⟩, ⟨4⟩] overflowScript
    (fun s => s.log.any (commitsOf 1 V.hash) && s.log.any (commitsOf 1 W.hash))
    (by decide) (by decide) (by decide +kernel)
  obtain ⟨hV, hW⟩ := Bool.and_eq_true_iff.mp hcommits
  obtain ⟨r₁, b₁, hc₁⟩ := exists_commit_of_commitsOf hV
  obtain ⟨r₂, b₂, hc₂⟩ := exists_commit_of_commitsOf hW
  exact ⟨Crypto.plain, overflowSetting, s, r₁, r₂, b₁, b₂, V.hash, W.hash, hrun, hc₁, hc₂,
    by decide +kernel⟩

/-- The two validators of `pairSet`, both correct. -/
def pairSetting : Setting where
  validatorSet := pairSet
  stakePool := pairPool
  minValidatorStake := 1
  signingChainId := ⟨[], nil_short⟩
  height := 1
  correct := fun _ => true
  minority := by decide

/-- They decide the block of the second, who leads round 0. -/
def pairScript [Crypto] : List (Pubkey × Op) :=
  let S := pairSetting
  let W := S.blockBy ⟨2⟩ ⟨1⟩
  let w := some W.hash
  [(⟨2⟩, .createProposal W),
   (⟨1⟩, .onProposal (S.proposalBy ⟨2⟩ 0 W)),
   (⟨1⟩, .onPrevote (S.prevoteBy ⟨2⟩ 0 w)),
   (⟨2⟩, .onPrevote (S.prevoteBy ⟨1⟩ 0 w)),
   (⟨1⟩, .onPrecommit (S.precommitBy ⟨2⟩ 0 w 0)),
   (⟨2⟩, .onPrecommit (S.precommitBy ⟨1⟩ 0 w 0))]

theorem agreement_pair : ∃ (_ : Crypto) (s : System) (r₁ r₂ : UInt32) (b₁ b₂ : Block)
    (bh₁ bh₂ : Hash), pairSetting.Run s ∧ .CommitBlock 1 r₁ b₁ bh₁ ∈ s.log
      ∧ .CommitBlock 1 r₂ b₂ bh₂ ∈ s.log ∧ bh₁ = bh₂
      ∧ s.log.countP (commitsOf 1 bh₁) = 2 := by
  let _ : Crypto := Crypto.plain
  let W := pairSetting.blockBy ⟨2⟩ ⟨1⟩
  obtain ⟨s, hrun, hp, hnone⟩ := Setting.exists_run_of_plays (S := pairSetting) 0
    [⟨1⟩, ⟨2⟩] pairScript
    (fun s => decide (s.log.countP (commitsOf 1 W.hash) = 2) && s.saneAt [⟨1⟩, ⟨2⟩])
    (by decide) (by decide) (by decide +kernel)
  obtain ⟨hcount, hsane⟩ := Bool.and_eq_true_iff.mp hp
  replace hcount := of_decide_eq_true hcount
  obtain ⟨r, b, hc⟩ := exists_commit_of_commitsOf (List.any_eq_true.mpr
    (List.countP_pos_iff.mp (hcount ▸ Nat.two_pos)))
  exact ⟨Crypto.plain, s, r, r, b, b, _, _, hrun, hc, hc,
    agreement hrun (Setting.allSane_of_saneAt hsane hnone) hc hc, hcount⟩

end Lichen
