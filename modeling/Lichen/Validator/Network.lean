/-
  A network of engines at one height.

  The correct validators each run a `ConsensusEngine` with the same frozen validator set and stake
  pool; everybody else is the adversary, with less than a third of the eligible stake.  The network
  may deliver anything to anybody at any time, as long as no signature is forged: a valid vote
  under a correct key has the signed bytes of something that key's engine has signed and broadcast.
  Nothing is assumed about proposals and block headers, which the adversary may even forge.

  A run is a sequence of engine starts and method calls (`Next`).  Its calls are broken into the
  moves of `Validator.Events`, with a global log of what has been emitted (`Move`), and `Linked`
  ties every engine to the log: whatever it counts for a correct validator was really sent.
-/
import Lichen.Base.Quorum
import Lichen.Validator.Tally

open Base HashMap
namespace Lichen
open Crypto Prevote List ConsensusEngine

/-- What is frozen for the height: the set, the pool, the chain, who is correct — and that the
    others hold less than a third of the eligible stake. -/
structure Setting where
  validatorSet : ValidatorSet
  stakePool : StakePool
  minValidatorStake : UInt64
  signingChainId : ChainId
  height : UInt64
  correct : Pubkey → Bool
  minority :
    let snap := ConsensusPowerSnapshot.build validatorSet stakePool minValidatorStake
    weight (powerIn snap.eligiblePower) (snap.eligiblePower.keys.filter fun k => !correct k) * 3
      < weight (powerIn snap.eligiblePower) snap.eligiblePower.keys

/-- The engines started so far, and everything they have emitted, in order. -/
structure System where
  engines : Pubkey → Option ConsensusEngine
  log : List ConsensusAction

namespace System

def init : System := ⟨fun _ => none, []⟩

/-- The engine of `pk` moves to `e` and emits `as`. -/
def update (s : System) (pk : Pubkey) (e : ConsensusEngine) (as : List ConsensusAction) : System :=
  ⟨Function.update s.engines pk (some e), s.log ++ as⟩

@[simp] theorem engines_update_self (s : System) (pk : Pubkey) (e : ConsensusEngine)
    (as : List ConsensusAction) : (s.update pk e as).engines pk = some e :=
  Function.update_self ..

theorem engines_update_ne (s : System) (e : ConsensusEngine)
    (as : List ConsensusAction) (h : pk' ≠ pk) : (s.update pk e as).engines pk' = s.engines pk' :=
  Function.update_of_ne h _ _

end System

/-- `k` has prevoted `bh` at round `r`. -/
def Prevoted (log : List ConsensusAction) (k : Pubkey) (r : UInt32) (bh : Option Hash) : Prop :=
  ∃ v, .BroadcastPrevote v ∈ log ∧ v.validator = k ∧ v.round = r ∧ v.blockHash = bh

/-- `k` has precommitted `bh` at round `r`. -/
def Precommitted (log : List ConsensusAction) (k : Pubkey) (r : UInt32) (bh : Option Hash) : Prop :=
  ∃ v, .BroadcastPrecommit v ∈ log ∧ v.validator = k ∧ v.round = r ∧ v.blockHash = bh

section
variable [Crypto]

/-- The messages a correct key has signed, as far as the network can know: what its engine has
    broadcast, and any block header. -/
inductive SignedBy (chainId : ChainId) (log : List ConsensusAction) (pk : Pubkey) :
    List UInt8 → Prop
  | proposal (p : Proposal) : .BroadcastProposal p ∈ log → p.proposer = pk →
      SignedBy chainId log pk (Proposal.signingBytesStaticForChainId chainId p.height p.round
        p.block.hash p.validRound)
  | prevote (v : Prevote) : .BroadcastPrevote v ∈ log → v.validator = pk →
      SignedBy chainId log pk (Prevote.signingBytesForChainId chainId v.height v.round v.blockHash)
  | precommit (v : Precommit) : .BroadcastPrecommit v ∈ log → v.validator = pk →
      SignedBy chainId log pk (Precommit.signingBytesForChainId chainId v.height v.round
        v.blockHash v.timestamp)
  | header (h : BlockHeader) : SignedBy chainId log pk (h.signingBytes chainId)

variable {chainId : ChainId} {log : List ConsensusAction} {pk : Pubkey}

theorem SignedBy.mono (hsub : ∀ a ∈ log, a ∈ log') (h : SignedBy chainId log pk msg) :
    SignedBy chainId log' pk msg := by
  cases h with
  | proposal p hp hk => exact .proposal p (hsub _ hp) hk
  | prevote v hv hk => exact .prevote v (hsub _ hv) hk
  | precommit v hv hk => exact .precommit v (hsub _ hv) hk
  | header hd => exact .header hd

/-! ## Domain separation

  The four kinds of signed messages carry different domain tags and payload lengths, so the bytes
  of one are never those of another. -/

section
omit [Crypto]

@[simp] theorem length_prevote_signable (h : UInt64) (r : UInt32) (b : Option Hash) :
    (signableBytes h r b).length = 45 := by
  simp [signableBytes]

@[simp] theorem length_precommit_signable (h : UInt64) (r : UInt32) (b : Option Hash) (t : UInt64) :
    (Precommit.signableBytes h r b t).length = 53 := by
  simp [Precommit.signableBytes]

@[simp] theorem length_proposal_signable (h : UInt64) (r : UInt32) (b : Hash) (vr : Int32) :
    (Proposal.signableBytesStatic h r b vr).length = 48 := by
  simp [Proposal.signableBytesStatic]

end

variable {h : UInt64} {r : UInt32} {b : Option Hash}

section
variable (hs : SignedBy chainId log pk (Prevote.signingBytesForChainId chainId h r b))
include hs

/-- Bytes of a prevote were signed as a prevote. -/
theorem SignedBy.exists_prevote :
    ∃ v, .BroadcastPrevote v ∈ log ∧ v.validator = pk ∧ v.height = h ∧ v.round = r
      ∧ hashOrNil v.blockHash = hashOrNil b := by
  generalize hmsg : signingBytesForChainId chainId h r b = msg at hs
  cases hs with
  | prevote v hv hk =>
    obtain ⟨hh, hr, hb⟩ := signingBytes_inj hmsg
    exact ⟨v, hv, hk, hh.symm, hr.symm, hb.symm⟩
  | proposal p =>
    exact absurd hmsg (maybeVersionedSigningBytes_ne (by simp))
  | precommit v =>
    exact absurd hmsg (maybeVersionedSigningBytes_ne (by simp))
  | header hd =>
    exact absurd hmsg (maybeVersionedSigningBytes_ne (by simp))

theorem SignedBy.of_prevote : ∃ b', Prevoted log pk r b' ∧ hashOrNil b' = hashOrNil b := by
  obtain ⟨v, hv, hk, -, hr, hb⟩ := hs.exists_prevote
  exact ⟨v.blockHash, ⟨v, hv, hk, hr, rfl⟩, hb⟩

end
section
variable {t : UInt64}
  (hs : SignedBy chainId log pk (Precommit.signingBytesForChainId chainId h r b t))
include hs

/-- Bytes of a precommit were signed as a precommit, with that timestamp. -/
theorem SignedBy.exists_precommit :
    ∃ v, .BroadcastPrecommit v ∈ log ∧ v.validator = pk ∧ v.height = h ∧ v.round = r
      ∧ v.timestamp = t ∧ hashOrNil v.blockHash = hashOrNil b := by
  generalize hmsg : Precommit.signingBytesForChainId chainId h r b t = msg at hs
  cases hs with
  | precommit v hv hk =>
    grind [Precommit.signingBytes_inj]
  | proposal p =>
    exact absurd hmsg (maybeVersionedSigningBytes_ne (by simp))
  | prevote v =>
    exact absurd hmsg (maybeVersionedSigningBytes_ne (by simp))
  | header hd =>
    exact absurd hmsg (maybeVersionedSigningBytes_ne (by simp))

theorem SignedBy.of_precommit : ∃ b', Precommitted log pk r b' ∧ hashOrNil b' = hashOrNil b := by
  obtain ⟨v, hv, hk, -, hr, -, hb⟩ := hs.exists_precommit
  exact ⟨v.blockHash, ⟨v, hv, hk, hr, rfl⟩, hb⟩

end

/-! ## Runs -/

namespace Setting

section
variable (S : Setting) (log : List ConsensusAction)

/-- The power the height is decided with. -/
def snapshot : ConsensusPowerSnapshot :=
  .build S.validatorSet S.stakePool S.minValidatorStake

/-- A signature under a correct key is on something that key has signed. -/
def Unforged (pk : Pubkey) (msg : List UInt8)
    (sig : PqSignature) : Prop :=
  S.correct pk = true → Crypto.verify pk msg sig = true → SignedBy S.signingChainId log pk msg

def UnforgedPrevote (v : Prevote) : Prop :=
  v.height = S.height → S.Unforged log v.validator
    (Prevote.signingBytesForChainId S.signingChainId v.height v.round v.blockHash) v.signature

def UnforgedPrecommit (v : Precommit) : Prop :=
  v.height = S.height → S.Unforged log v.validator
    (Precommit.signingBytesForChainId S.signingChainId v.height v.round v.blockHash v.timestamp)
    v.signature

/-- The votes a call hands in are not forged. -/
def Delivers (e : ConsensusEngine) : Op → Prop
  | .onPrevote v => S.UnforgedPrevote log v
  | .onPrecommit v => S.UnforgedPrecommit log v
  | .drainFutureMessages =>
    (∀ v ∈ (e.futurePrevotes.get e.height).getD [], S.UnforgedPrevote log v)
      ∧ ∀ v ∈ (e.futurePrecommits.get e.height).getD [], S.UnforgedPrecommit log v
  | _ => True

end

/-- An engine of `pk`, at whatever earlier height and in whatever state. -/
structure Identity (S : Setting) (pk : Pubkey) (e : ConsensusEngine) : Prop where
  key : Crypto.pubkey e.keypair = pk
  validatorPubkey : e.validatorPubkey = pk
  signingChainId : e.signingChainId = S.signingChainId
  minValidatorStake : e.minValidatorStake = S.minValidatorStake

/-- `start_height`, then `rebuild_power_snapshot`. -/
def started (S : Setting) (e : ConsensusEngine) : ConsensusEngine :=
  (e.startHeight S.height).rebuildPowerSnapshot S.validatorSet S.stakePool

/-- One step of the network: a correct validator starts the height, once, or its engine is called
    with the frozen set and pool. -/
inductive Next (S : Setting) (s : System) : System → Prop
  | start (pk : Pubkey) (e : ConsensusEngine) (hcorrect : S.correct pk = true)
      (hnone : s.engines pk = none) (hid : S.Identity pk e) :
      Next S s (s.update pk (S.started e) [])
  | call (pk : Pubkey) (e : ConsensusEngine) (env : Env) (op : Op)
      (hcorrect : S.correct pk = true) (he : s.engines pk = some e)
      (hset : env.validatorSet = S.validatorSet) (hpool : env.stakePool = S.stakePool)
      (hdel : S.Delivers s.log e op) :
      Next S s (s.update pk (op.run env e).2 (op.run env e).1.flatten)

/-- The states the network can reach. -/
def Run (S : Setting) (s : System) : Prop := Relation.ReflTransGen (Next S) System.init s

/-- The votes an event takes in are not forged. -/
def UnforgedEvent (S : Setting) (log : List ConsensusAction) : Event → Prop
  | .recvPrevote v => S.UnforgedPrevote log v
  | .recvPrecommit v => S.UnforgedPrecommit log v
  | _ => True

/-- The same steps, one move of one engine at a time. -/
inductive Move (S : Setting) (s : System) : System → Prop
  | start (pk : Pubkey) (e : ConsensusEngine) (hcorrect : S.correct pk = true)
      (hnone : s.engines pk = none) (hid : S.Identity pk e) :
      Move S s (s.update pk (S.started e) [])
  | step (pk : Pubkey) (e : ConsensusEngine) (env : Env) (ev : Event) (e' : ConsensusEngine)
      (hcorrect : S.correct pk = true) (he : s.engines pk = some e)
      (hstep : ConsensusEngine.Step env e ev e') (hev : S.UnforgedEvent s.log ev) :
      Move S s (s.update pk e' ev.output)

abbrev Moves (S : Setting) : System → System → Prop := Relation.ReflTransGen (Move S)

variable {S : Setting}

variable {log : List ConsensusAction}

theorem UnforgedEvent.mono
    (hsub : ∀ a ∈ log, a ∈ log') (h : S.UnforgedEvent log ev) : S.UnforgedEvent log' ev := by
  cases ev with
  | recvPrevote v => exact fun hh hc hv => (h hh hc hv).mono hsub
  | recvPrecommit v => exact fun hh hc hv => (h hh hc hv).mono hsub
  | _ => trivial

variable {e : ConsensusEngine}

theorem unforgedEvent_of_delivers (h : S.Delivers log e op) (hev : ev.Internal ∨ op.Takes e ev) :
    S.UnforgedEvent log ev := by
  have hin := Op.Takes.vote hev
  cases ev with
  | recvPrevote v =>
    rcases hin with rfl | ⟨rfl, hv⟩
    · exact h
    · exact h.1 v hv
  | recvPrecommit v =>
    rcases hin with rfl | ⟨rfl, hv⟩
    · exact h
    · exact h.2 v hv
  | _ => trivial

variable {pk : Pubkey}

/-- A chain of moves of one engine is a chain of moves of the system. -/
theorem moves_of_trace (hcorrect : S.correct pk = true) (htr : Trace (Step env) e evs e') :
    ∀ s : System, s.engines pk = some e → (∀ ev ∈ evs, S.UnforgedEvent s.log ev) →
      S.Moves s (s.update pk e' (evs.flatMap Event.output)) := by
  induction htr with
  | nil e =>
    intro s he _
    have hsame : s.update pk e [] = s := by
      unfold System.update
      rw [append_nil, ← he, Function.update_eq_self]
    rw [flatMap_nil, hsame]
  | @cons e ev e₁ evs e₂ hstep _ ih =>
    intro s he hev
    have hmove : S.Move s (s.update pk e₁ ev.output) :=
      .step pk e env ev e₁ hcorrect he hstep (hev ev mem_cons_self)
    have hrest := ih (s.update pk e₁ ev.output) (System.engines_update_self ..) ?_
    · have hjoin : (s.update pk e₁ ev.output).update pk e₂ (evs.flatMap Event.output)
          = s.update pk e₂ ((ev :: evs).flatMap Event.output) := by
        unfold System.update
        rw [Function.update_idem, flatMap_cons, append_assoc]
      rw [hjoin] at hrest
      exact Relation.ReflTransGen.head hmove hrest
    · intro ev' hev'
      exact (hev ev' (mem_cons_of_mem _ hev')).mono (fun a ha => mem_append_left _ ha)

/-! ## What an engine counts was sent -/

variable {r : UInt32} {k : Pubkey} {bh : Option Hash}

section
omit [Crypto]

theorem prevoted_append : Prevoted (l ++ l') k r bh ↔ Prevoted l k r bh ∨ Prevoted l' k r bh := by
  unfold Prevoted
  simp only [mem_append, or_and_right, exists_or]

theorem precommitted_append :
    Precommitted (l ++ l') k r bh ↔ Precommitted l k r bh ∨ Precommitted l' k r bh := by
  unfold Precommitted
  simp only [mem_append, or_and_right, exists_or]

end

/-- The only move that emits a prevote is signing one. -/
theorem prevoted_output (h : Step env e ev e') (hv : Prevoted ev.output k r bh) :
    k = e.validatorPubkey ∧ r = e.round ∧ ev = .prevote (e.ownPrevote bh) := by
  obtain ⟨v, hmem, rfl, rfl, rfl⟩ := hv
  cases h with
  | prevote bh =>
    have hvote : v = e.ownPrevote bh := by
      have := mem_singleton.mp hmem
      injection this
    subst hvote
    exact ⟨rfl, rfl, rfl⟩
  | emit a ha =>
    obtain rfl := mem_singleton.mp hmem
    exact absurd ha id
  | _ => simp [Event.output] at hmem

/-- The only move that emits a precommit is signing one. -/
theorem precommitted_output (h : Step env e ev e') (hv : Precommitted ev.output k r bh) :
    k = e.validatorPubkey ∧ r = e.round ∧ ev = .precommit (e.ownPrecommit env bh) := by
  obtain ⟨v, hmem, rfl, rfl, rfl⟩ := hv
  cases h with
  | precommit bh =>
    have hvote : v = e.ownPrecommit env bh := by
      have := mem_singleton.mp hmem
      injection this
    subst hvote
    exact ⟨rfl, rfl, rfl⟩
  | emit a ha =>
    obtain rfl := mem_singleton.mp hmem
    exact absurd ha id
  | _ => simp [Event.output] at hmem

variable {bh : Hash}

/-- A block is prevoted only if the lock allows it. -/
theorem prevoted_guard (h : Step env e ev e') (hv : Prevoted ev.output k r (some bh)) :
    e.MayPrevote env bh := by
  obtain ⟨-, -, hev⟩ := prevoted_output h hv
  cases h with
  | prevote bh' hstep hsigned hmay =>
    have hbh : bh' = some bh := congrArg blockHash (Event.prevote.inj hev)
    exact hmay bh hbh
  | _ => exact nomatch hev

/-- A block is precommitted only by an engine that has just locked on it. -/
theorem precommitted_guard (h : Step env e ev e') (hv : Precommitted ev.output k r (some bh)) :
    e.lockedRound = some r ∧ e.lockedValue = some bh ∧ e.Quorum env e.prevotes (r, some bh) := by
  obtain ⟨-, rfl, hev⟩ := precommitted_output h hv
  cases h with
  | precommit bh' hstep hsigned hlock =>
    have hbh : bh' = some bh := congrArg Precommit.blockHash (Event.precommit.inj hev)
    exact hlock bh hbh
  | _ => exact nomatch hev

/-- How the engine `e` of `pk` is tied to the log. -/
structure Linked (S : Setting) (log : List ConsensusAction) (pk : Pubkey) (e : ConsensusEngine) :
    Prop where
  correct : S.correct pk = true
  validatorPubkey : e.validatorPubkey = pk
  signingChainId : e.signingChainId = S.signingChainId
  height : e.height = S.height
  powerSnapshot : e.powerSnapshot = some S.snapshot
  blocks : e.BlocksWf
  tally : e.TallyInv
  /-- a prevote counted for a correct validator was sent by it, up to the encoding of nil -/
  seenPrevote : ∀ r k bh, e.prevotes.seen.get (r, k) = some bh → S.correct k = true →
    ∃ bh', Prevoted log k r bh' ∧ hashOrNil bh' = hashOrNil bh
  seenPrecommit : ∀ r k bh, e.precommits.seen.get (r, k) = some bh → S.correct k = true →
    ∃ bh', Precommitted log k r bh' ∧ hashOrNil bh' = hashOrNil bh
  /-- what the engine sent, it remembers signing -/
  ownPrevote : ∀ r bh, Prevoted log pk r bh → e.prevotes.signedRounds.get r = some bh
  ownPrecommit : ∀ r bh, Precommitted log pk r bh → e.precommits.signedRounds.get r = some bh

/-- More in the log that is not by `pk` does not matter. -/
theorem Linked.append (h : Linked S log pk e) (hpv : ∀ r bh, ¬ Prevoted log' pk r bh)
    (hpc : ∀ r bh, ¬ Precommitted log' pk r bh) : Linked S (log ++ log') pk e where
  correct := h.correct
  validatorPubkey := h.validatorPubkey
  signingChainId := h.signingChainId
  height := h.height
  powerSnapshot := h.powerSnapshot
  blocks := h.blocks
  tally := h.tally
  seenPrevote := by
    grind [seenPrevote, prevoted_append]
  seenPrecommit := by
    grind [seenPrecommit, precommitted_append]
  ownPrevote := by
    grind [prevoted_append, ownPrevote]
  ownPrecommit := by
    grind [precommitted_append, ownPrecommit]

/-- Own votes only come back once they are signed. -/
theorem Linked.echoesSigned
    (h : Linked S log pk e) (hev : S.UnforgedEvent log ev) : e.EchoesSigned ev := by
  cases ev with
  | recvPrevote v =>
    intro hown hheight hsig
    rw [h.validatorPubkey] at hown
    rw [h.height] at hheight
    have hsigned := hev hheight (hown ▸ h.correct) (h.signingChainId ▸ hsig)
    obtain ⟨b', hv, -⟩ := hsigned.of_prevote
    rw [h.ownPrevote _ _ (hown ▸ hv)]
    exact Option.some_ne_none _
  | recvPrecommit v =>
    intro hown hheight hsig
    rw [h.validatorPubkey] at hown
    rw [h.height] at hheight
    have hsigned := hev hheight (hown ▸ h.correct) (h.signingChainId ▸ hsig)
    obtain ⟨b', hv, -⟩ := hsigned.of_precommit
    rw [h.ownPrecommit _ _ (hown ▸ hv)]
    exact Option.some_ne_none _
  | _ => trivial

/-- **One move keeps its engine tied to the log.** -/
theorem Linked.step (h : Linked S log pk e) (hs : Step env e ev e')
    (hev : S.UnforgedEvent log ev) : Linked S (log ++ ev.output) pk e' where
  correct := h.correct
  validatorPubkey := hs.frame.validatorPubkey.trans h.validatorPubkey
  signingChainId := hs.frame.signingChainId.trans h.signingChainId
  height := hs.frame.height.trans h.height
  powerSnapshot := hs.frame.powerSnapshot.trans h.powerSnapshot
  blocks := hs.blocksWf h.blocks
  tally := hs.tallyInv (h.echoesSigned hev) h.tally
  seenPrevote := by
    intro r k bh hseen hk
    rcases hs.seenPrevote hseen with hseen | ⟨v, rfl, rfl, rfl, rfl, hheight, hsig⟩ | ⟨rfl, rfl, rfl⟩
    · grind [seenPrevote, prevoted_append]
    · have hsigned := hev (hheight.trans h.height) hk (h.signingChainId ▸ hsig)
      grind [SignedBy.of_prevote, prevoted_append]
    · exact ⟨bh, prevoted_append.mpr (.inr ⟨_, mem_singleton_self _, rfl, rfl, rfl⟩), rfl⟩
  seenPrecommit := by
    intro r k bh hseen hk
    rcases hs.seenPrecommit hseen with
      hseen | ⟨v, rfl, rfl, rfl, rfl, hheight, hsig⟩ | ⟨rfl, rfl, rfl⟩
    · grind [seenPrecommit, precommitted_append]
    · have hsigned := hev (hheight.trans h.height) hk (h.signingChainId ▸ hsig)
      grind [SignedBy.of_precommit, precommitted_append]
    · exact ⟨bh, precommitted_append.mpr (.inr ⟨_, mem_singleton_self _, rfl, rfl, rfl⟩), rfl⟩
  ownPrevote := by
    intro r bh hv
    rcases prevoted_append.mp hv with hv | hv
    · have hold := h.ownPrevote r bh hv
      grind [Step.signedPrevotes]
    · obtain ⟨-, rfl, rfl⟩ := prevoted_output hs hv
      rcases hs.signedPrevotes with ⟨bh', heq', -, heq⟩ | ⟨hne, -⟩
      · obtain rfl : bh = bh' := congrArg blockHash (Event.prevote.inj heq')
        rw [heq]
        exact get_put_self _ _ _
      · exact absurd rfl (hne _)
  ownPrecommit := by
    intro r bh hv
    rcases precommitted_append.mp hv with hv | hv
    · have hold := h.ownPrecommit r bh hv
      grind [Step.signedPrecommits]
    · obtain ⟨-, rfl, rfl⟩ := precommitted_output hs hv
      rcases hs.signedPrecommits with ⟨bh', heq', -, heq⟩ | ⟨hne, -⟩
      · obtain rfl : bh = bh' := congrArg Precommit.blockHash (Event.precommit.inj heq')
        rw [heq]
        exact get_put_self _ _ _
      · exact absurd rfl (hne _)

/-- The invariant of the network: engines are tied to the log, and who has not started is silent. -/
structure Inv (S : Setting) (s : System) : Prop where
  linked : ∀ pk e, s.engines pk = some e → Linked S s.log pk e
  silent : ∀ pk, s.engines pk = none →
    (∀ r bh, ¬ Prevoted s.log pk r bh) ∧ ∀ r bh, ¬ Precommitted s.log pk r bh

theorem inv_init : Inv S System.init where
  linked := fun pk e he => nomatch he
  silent := by
    simp [System.init, Prevoted, Precommitted]

/-- A freshly started engine has counted nothing and signed nothing. -/
theorem linked_started (hcorrect : S.correct pk = true) (hid : S.Identity pk e)
    (hpv : ∀ r bh, ¬ Prevoted log pk r bh) (hpc : ∀ r bh, ¬ Precommitted log pk r bh) :
    Linked S log pk (S.started e) where
  correct := hcorrect
  validatorPubkey := hid.validatorPubkey
  signingChainId := hid.signingChainId
  height := rfl
  powerSnapshot := by
    show some (ConsensusPowerSnapshot.build _ _ e.minValidatorStake) = _
    rw [hid.minValidatorStake]
    rfl
  blocks := fun k b hget => absurd hget (by simp [started, rebuildPowerSnapshot, startHeight])
  tally := by
    apply TallyInv.rebuildPowerSnapshot
    exact ⟨VoteTally.distinct_empty, VoteTally.distinct_empty, fun _ => rfl, fun _ => rfl,
      fun snap _ => VoteTally.counted_empty snap, fun snap _ => VoteTally.counted_empty snap⟩
  seenPrevote := fun r k bh hseen => nomatch hseen
  seenPrecommit := fun r k bh hseen => nomatch hseen
  ownPrevote := fun r bh hv => absurd hv (hpv r bh)
  ownPrecommit := fun r bh hv => absurd hv (hpc r bh)

/-- Every move keeps the invariant. -/
theorem Move.inv (h : Move S s s') (hI : Inv S s) : Inv S s' := by
  cases h with
  | start pk e hcorrect hnone hid =>
    have hlog : (s.update pk (S.started e) []).log = s.log := append_nil _
    constructor
    · grind [System.engines_update_self, Inv.silent, linked_started, System.engines_update_ne, Inv.linked]
    · intro pk' hnone'
      rw [hlog]
      grind [System.engines_update_ne, Inv.silent]
  | step pk e env ev e₁ hcorrect he hstep hev =>
    have hlink := hI.linked pk e he
    -- what the move emits is under the key of the engine that moves
    have hothers : ∀ pk', pk' ≠ pk → (∀ r bh, ¬ Prevoted ev.output pk' r bh)
        ∧ ∀ r bh, ¬ Precommitted ev.output pk' r bh := by
      intro pk' hpk
      refine ⟨fun r bh hv => ?_, fun r bh hv => ?_⟩
      · exact hpk ((prevoted_output hstep hv).1.trans hlink.validatorPubkey)
      · exact hpk ((precommitted_output hstep hv).1.trans hlink.validatorPubkey)
    constructor
    · intro pk' e' he'
      by_cases hpk : pk' = pk
      · subst hpk
        rw [System.engines_update_self] at he'
        cases he'
        exact hlink.step hstep hev
      · rw [System.engines_update_ne _ _ _ hpk] at he'
        exact (hI.linked pk' e' he').append (hothers pk' hpk).1 (hothers pk' hpk).2
    · intro pk' hnone'
      by_cases hpk : pk' = pk
      · simp_all
      · rw [System.engines_update_ne _ _ _ hpk] at hnone'
        obtain ⟨hpv, hpc⟩ := hI.silent pk' hnone'
        refine ⟨fun r bh hv => ?_, fun r bh hv => ?_⟩
        · rcases prevoted_append.mp hv with hv | hv
          · exact hpv r bh hv
          · exact (hothers pk' hpk).1 r bh hv
        · rcases precommitted_append.mp hv with hv | hv
          · exact hpc r bh hv
          · exact (hothers pk' hpk).2 r bh hv

theorem Moves.inv (h : S.Moves s s') (hI : Inv S s) : Inv S s' := by
  induction h with
  | refl => exact hI
  | tail _ hm ih => exact hm.inv ih

/-- **Every run is a chain of moves.** -/
theorem Run.moves (h : S.Run s) : S.Moves System.init s := by
  induction h with
  | refl => exact .refl
  | tail _ hnext ih =>
    cases hnext with
    | start pk e hcorrect hnone hid => exact ih.tail (.start pk e hcorrect hnone hid)
    | call pk e env op hcorrect he hset hpool hdel =>
      have hwf := ((Moves.inv ih inv_init).linked pk e he).blocks
      obtain ⟨evs, htr, hout, hallow⟩ := op.run_does env hwf
      have hmoves := moves_of_trace hcorrect htr _ he
        (fun ev hev => unforgedEvent_of_delivers hdel (hallow ev hev))
      rw [hout] at hmoves
      exact Relation.ReflTransGen.trans ih hmoves

/-! ## Quorums in the network -/

/-- The validators of the height, weighted by their power. -/
def weighted (S : Setting) : Weighted Pubkey where
  univ := S.snapshot.eligiblePower.keys
  nodup := S.snapshot.eligiblePower.keys_nodup
  w := powerIn S.snapshot.eligiblePower
  outside := powerIn_outside
  bad := fun k => !S.correct k
  few_bad := S.minority

omit [Crypto] in
theorem total_weighted : S.weighted.total = S.snapshot.totalEligibleStake :=
  S.snapshot.total_eq.symm

theorem Linked.isQuorum {V : Type} (h : Linked S log pk e) {t : VoteTally V} (hd : t.Distinct)
    (hc : t.Counted S.snapshot) {key : UInt32 × Option Hash} (hq : e.Quorum env t key) :
    S.weighted.IsQuorum (t.bucket key) := by
  refine ⟨hd.nodup key, ?_⟩
  rw [total_weighted]
  exact (Quorum.two_thirds h.powerSnapshot hc hq).2

/-- A list of validators with 2/3 of the stake, the correct ones of which have prevoted `bh` at
    `r`. -/
def Polka (S : Setting) (log : List ConsensusAction) (r : UInt32) (bh : Hash) : Prop :=
  ∃ l, S.weighted.IsQuorum l ∧ ∀ k ∈ l, S.correct k = true → Prevoted log k r (some bh)

/-- The same for precommits. -/
def CommitQuorum (S : Setting) (log : List ConsensusAction) (r : UInt32) (bh : Hash) : Prop :=
  ∃ l, S.weighted.IsQuorum l ∧ ∀ k ∈ l, S.correct k = true → Precommitted log k r (some bh)

/-- A polka an engine counts, for a hash that is not the encoding of nil, is a real one. -/
theorem Linked.polka (h : Linked S log pk e) (hz : bh ≠ Hash.zero)
    (hq : e.Quorum env e.prevotes (r, some bh)) : S.Polka log r bh := by
  refine ⟨_, h.isQuorum h.tally.prevotes (h.tally.countedPrevotes _ h.powerSnapshot) hq, ?_⟩
  intro k hk hcorrect
  obtain ⟨bh', hv, heq⟩ := h.seenPrevote r k _ ((h.tally.prevotes.mem_bucket r _ k).mp hk) hcorrect
  rw [eq_some_of_hashOrNil hz heq] at hv
  exact hv

theorem Linked.commitQuorum (h : Linked S log pk e) (hz : bh ≠ Hash.zero)
    (hq : e.Quorum env e.precommits (r, some bh)) : S.CommitQuorum log r bh := by
  refine ⟨_, h.isQuorum h.tally.precommits (h.tally.countedPrecommits _ h.powerSnapshot) hq, ?_⟩
  intro k hk hcorrect
  obtain ⟨bh', hv, heq⟩ :=
    h.seenPrecommit r k _ ((h.tally.precommits.mem_bucket r _ k).mp hk) hcorrect
  rw [eq_some_of_hashOrNil hz heq] at hv
  exact hv

/-! ## Scripted runs -/

/-- `v` has been broadcast, as far as its signed bytes go. -/
def sentPrevote (v : Prevote) : ConsensusAction → Bool
  | .BroadcastPrevote w => w.validator = v.validator ∧ w.height = v.height ∧ w.round = v.round
      ∧ w.blockHash = v.blockHash
  | _ => false

def sentPrecommit (v : Precommit) : ConsensusAction → Bool
  | .BroadcastPrecommit w => w.validator = v.validator ∧ w.height = v.height ∧ w.round = v.round
      ∧ w.blockHash = v.blockHash ∧ w.timestamp = v.timestamp
  | _ => false

/-- A check that suffices for `Delivers`. -/
def sent (S : Setting) (log : List ConsensusAction) : Op → Bool
  | .onPrevote v => !S.correct v.validator || log.any (sentPrevote v)
  | .onPrecommit v => !S.correct v.validator || log.any (sentPrecommit v)
  | .drainFutureMessages => false
  | _ => true

theorem delivers_of_sent (h : S.sent log op = true) : S.Delivers log e op := by
  cases op with
  | onPrevote v =>
    intro hheight hcorrect hsig
    simp only [sent, hcorrect, Bool.not_true, Bool.false_or, any_eq_true] at h
    obtain ⟨a, ha, hsent⟩ := h
    cases a with
    | BroadcastPrevote w =>
      obtain ⟨hk, hh, hr, hb⟩ := of_decide_eq_true hsent
      rw [← hh, ← hr, ← hb]
      exact .prevote w ha hk
    | _ => exact absurd hsent Bool.false_ne_true
  | onPrecommit v =>
    intro _ hcorrect _
    simp only [sent, hcorrect, Bool.not_true, Bool.false_or, any_eq_true] at h
    obtain ⟨a, ha, hsent⟩ := h
    cases a with
    | BroadcastPrecommit w =>
      obtain ⟨hk, hh, hr, hb, ht⟩ := of_decide_eq_true hsent
      rw [← hh, ← hr, ← hb, ← ht]
      exact .precommit w ha hk
    | _ => exact absurd hsent Bool.false_ne_true
  | drainFutureMessages => exact absurd h Bool.false_ne_true
  | _ => trivial

/-- The environment of the height, with a fixed clock. -/
def env (S : Setting) (now : UInt64) : Env := .plain S.validatorSet S.stakePool now

/-- Make the calls of a script, as long as each is a legal step. -/
def play (S : Setting) (now : UInt64) : List (Pubkey × Op) → System → Option System
  | [], s => some s
  | (pk, op) :: script, s =>
    match s.engines pk with
    | none => none
    | some e =>
      if S.correct pk && S.sent s.log op then
        S.play now script
          (s.update pk (op.run (S.env now) e).2 (op.run (S.env now) e).1.flatten)
      else none

variable {script : List (Pubkey × Op)}

theorem Run.play : ∀ {s s' : System}, S.Run s → S.play now script s = some s' → S.Run s' := by
  induction script with
  | nil =>
    simp [Run, Setting.play]
  | cons c script ih =>
    obtain ⟨pk, op⟩ := c
    intro s s' hrun h
    unfold Setting.play at h
    split at h
    · exact nomatch h
    · rename_i e he
      split at h
      · rename_i hok
        obtain ⟨hcorrect, hsent⟩ := Bool.and_eq_true_iff.mp hok
        exact ih (hrun.tail (.call pk e _ op hcorrect he rfl rfl (delivers_of_sent hsent))) h
      · exact nomatch h

theorem engines_play : ∀ {s s' : System}, S.play now script s = some s' → s.engines pk = none →
      s'.engines pk = none := by
  induction script with
  | nil =>
    simp [play]
  | cons c script ih =>
    grind [Setting.play, System.engines_update_ne]

/-- Start the height with fresh engines for these keys. -/
def startAll (S : Setting) : List Keypair → System
  | [] => System.init
  | kp :: kps => (S.startAll kps).update (Crypto.pubkey kp) (S.started (.new kp (Crypto.pubkey kp)
      S.signingChainId S.minValidatorStake .default)) []

theorem engines_startAll (h : pk ∉ kps.map pubkey) : (S.startAll kps).engines pk = none := by
  induction kps with
  | nil => rfl
  | cons kp kps ih =>
    rw [map_cons, mem_cons, not_or] at h
    exact (System.engines_update_ne _ _ _ h.1).trans (ih h.2)

theorem run_startAll (hnodup : (kps.map pubkey).Nodup)
    (hcorrect : ∀ kp ∈ kps, S.correct (pubkey kp) = true) : S.Run (S.startAll kps) := by
  induction kps with
  | nil => exact .refl
  | cons kp kps ih =>
    rw [map_cons, nodup_cons] at hnodup
    have hprev := ih hnodup.2 (fun kp' hkp' => hcorrect kp' (mem_cons_of_mem _ hkp'))
    exact hprev.tail (.start _ _ (hcorrect kp mem_cons_self) (engines_startAll hnodup.1)
      ⟨rfl, rfl, rfl, rfl⟩)

/-- The script can be played from a fresh start with these keys, and ends in a state with `p`. -/
def plays (S : Setting) (now : UInt64) (kps : List Keypair) (script : List (Pubkey × Op))
    (p : System → Bool) : Bool :=
  match S.play now script (S.startAll kps) with
  | some s => p s
  | none => false

theorem exists_run_of_plays (now : UInt64) (kps : List Keypair) (script : List (Pubkey × Op))
    (p : System → Bool) (hnodup : (kps.map pubkey).Nodup)
    (hcorrect : ∀ kp ∈ kps, S.correct (pubkey kp) = true)
    (h : S.plays now kps script p = true) :
    ∃ s, S.Run s ∧ p s = true ∧ ∀ pk, pk ∉ kps.map pubkey → s.engines pk = none := by
  unfold plays at h
  split at h
  · rename_i s hs
    exact ⟨s, (run_startAll hnodup hcorrect).play hs, h,
      fun pk hpk => engines_play hs (engines_startAll hpk)⟩
  · exact absurd h Bool.false_ne_true

variable (S : Setting)

/-- A prevote of the height, signed with `kp`. -/
def prevoteBy (kp : Keypair) (round : UInt32) (bh : Option Hash) : Prevote :=
  ⟨S.height, round, bh, Crypto.pubkey kp,
    Crypto.sign kp (Prevote.signingBytesForChainId S.signingChainId S.height round bh)⟩

/-- A precommit of the height, signed with `kp`. -/
def precommitBy (kp : Keypair) (round : UInt32) (bh : Option Hash) (ts : UInt64) :
    Precommit :=
  ⟨S.height, round, bh, Crypto.pubkey kp,
    Crypto.sign kp (Precommit.signingBytesForChainId S.signingChainId S.height round bh ts), ts⟩

/-- A proposal of a new block for the height, signed with `kp`. -/
def proposalBy (kp : Keypair) (round : UInt32) (block : Block) : Proposal :=
  ⟨S.height, round, block, -1, Crypto.pubkey kp,
    Crypto.sign kp (Proposal.signingBytesStaticForChainId S.signingChainId S.height round
      block.hash (-1))⟩

/-- An empty block for the height, told apart by its state root and its time, signed with `kp`. -/
def blockAt (kp : Keypair) (stateRoot : Hash) (timestamp : UInt64) : Block :=
  Block.signWithChainId
    ⟨⟨S.height, Hash.zero, stateRoot, Hash.zero, timestamp, Hash.zero, Crypto.pubkey kp, none⟩, [],
      [], [], 0, []⟩ kp S.signingChainId

def blockBy (kp : Keypair) (stateRoot : Hash) : Block := S.blockAt kp stateRoot 0

end Setting
end
end Lichen
