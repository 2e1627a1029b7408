/-
  The consensus write-ahead log (`validator/src/wal.rs`).

  What a validator must not forget in a crash — the votes it signed, the value it is locked on, the
  blocks its votes refer to — is appended to one file, a frame per entry, and loaded when the
  process starts again.  The file is a byte string here; an append that returned `Ok` added its
  whole frame, and one that a crash or a write error cut off added any prefix of it.

  `decode_entries` stops at the first torn frame, and neither `open` nor `append_result` cuts the
  torn bytes off, so the next append goes behind them and is lost with everything after it
  (`acked_entry_lost`).  Entries are safe as long as no append starts behind a torn frame
  (`acked_entries_loaded`).

  The bincode codec of an entry is third-party code: it enters as `WalCodec`, with its round trip
  and the size limit it is called with.
-/
import Lichen.Base.FrameLog
import Lichen.Core.Types

open Base
namespace Lichen

def WAL_ENTRY_CODEC_LIMIT_BYTES : Nat := 32 * 1024 * 1024

inductive SignedVoteType where
  | Prevote
  | Precommit
  deriving DecidableEq, Repr

/-- A signed vote, kept until its height is checkpointed. -/
structure SignedVoteRecord where
  height : UInt64
  round : UInt32
  voteType : SignedVoteType
  blockHash : Option Hash
  validator : Pubkey
  signature : PqSignature
  timestamp : Option UInt64
  deriving DecidableEq, Repr

inductive WalEntry where
  | HeightStarted (height : UInt64)
  | Locked (height : UInt64) (round : UInt32) (blockHash : Hash)
  | CommitDecision (height : UInt64) (round : UInt32) (blockHash : Hash)
  | ProposalBlock (height : UInt64) (round : UInt32) (block : Block)
  | SignedVote (record : SignedVoteRecord)
  | Checkpoint (height : UInt64)
  deriving DecidableEq

/-- `bincode` on entries, with the limit the log passes. -/
structure WalCodec where
  serialize : WalEntry → Except String (List UInt8)
  deserialize : List UInt8 → Except String WalEntry
  round_trip : ∀ {entry bytes}, serialize entry = .ok bytes → deserialize bytes = .ok entry
  limited : ∀ {entry bytes}, serialize entry = .ok bytes → bytes.length ≤ WAL_ENTRY_CODEC_LIMIT_BYTES

/-- `ConsensusWal`: the entries since the last checkpoint, as the process holds them. -/
structure ConsensusWal where
  entries : List WalEntry

/-! ## The file -/

namespace ConsensusWal
section
variable [Crypto]

/-- The first four bytes of SHA-256. -/
def checksum (data : List UInt8) : List UInt8 := (Crypto.hash data).bytes.take 4

def encodeEntryFrame (codec : WalCodec) (entry : WalEntry) (context : String) :
    Except String (List UInt8) :=
  match codec.serialize entry with
  | .error e => .error ("WAL: Failed to serialize entry: " ++ context
      ++ " legacy bincode serialize failed: " ++ e)
  | .ok encoded => .ok (leBytes 4 encoded.length ++ (encoded ++ checksum encoded))

/-- The log's frames, as an instance of the general ones. -/
def frames (codec : WalCodec) : FrameCodec WalEntry where
  encode entry := (codec.serialize entry).toOption
  decode payload := (codec.deserialize payload).toOption
  checksum := checksum
  decode_encode := by
    intro entry payload h
    cases hs : codec.serialize entry with
    | error e => rw [hs] at h; exact nomatch h
    | ok bytes =>
      rw [hs] at h
      obtain rfl := Option.some.inj h
      rw [codec.round_trip hs]
      rfl
  length_encode := by
    intro entry payload h
    cases hs : codec.serialize entry with
    | error e => rw [hs] at h; exact nomatch h
    | ok bytes =>
      rw [hs] at h
      obtain rfl := Option.some.inj h
      have hlimit := codec.limited hs
      unfold WAL_ENTRY_CODEC_LIMIT_BYTES at hlimit
      omega
  length_checksum := by
    simp [checksum, Hash.length_bytes]

/-- `decode_entries`. -/
def decodeEntries (codec : WalCodec) (data : List UInt8) : List WalEntry := (frames codec).read data

/-- `ConsensusWal::open` on a file with this content. -/
def «open» (codec : WalCodec) (file : List UInt8) : ConsensusWal := ⟨decodeEntries codec file⟩

theorem frame_of_encodeEntryFrame (h : encodeEntryFrame codec entry context = .ok frame) :
    (frames codec).frame entry = some frame := by
  unfold encodeEntryFrame at h
  split at h
  · exact nomatch h
  · rename_i hs
    cases h
    show ((codec.serialize entry).toOption).map _ = _
    rw [hs]
    rfl

end
end ConsensusWal

/-! ## Appends, crashes and restarts -/

/-- The file, the running process's log, and — to state what is promised — the entries appended
    with `Ok` since the last successful checkpoint. -/
structure WalState where
  file : List UInt8
  wal : ConsensusWal
  acked : List WalEntry

section
variable [Crypto]

/-- One step of the log's life; `may file` says whether an append may be made behind `file`. -/
inductive WalStep (codec : WalCodec) (may : List UInt8 → Prop) (s : WalState) : WalState → Prop
  /-- `append_result` returned `Ok` -/
  | append (entry : WalEntry) (frame : List UInt8) (hmay : may s.file)
      (hframe : ConsensusWal.encodeEntryFrame codec entry "consensus WAL entry" = .ok frame) :
      WalStep codec may s ⟨s.file ++ frame, ⟨s.wal.entries ++ [entry]⟩, s.acked ++ [entry]⟩
  /-- the write failed on the way, and the process goes on -/
  | failed (entry : WalEntry) (frame kept : List UInt8)
      (hframe : ConsensusWal.encodeEntryFrame codec entry "consensus WAL entry" = .ok frame)
      (hkept : kept <+: frame) :
      WalStep codec may s ⟨s.file ++ kept, s.wal, s.acked⟩
  /-- a crash in the middle of an append, and the restart -/
  | crash (entry : WalEntry) (frame kept : List UInt8)
      (hframe : ConsensusWal.encodeEntryFrame codec entry "consensus WAL entry" = .ok frame)
      (hkept : kept <+: frame) :
      WalStep codec may s ⟨s.file ++ kept, ConsensusWal.open codec (s.file ++ kept), s.acked⟩
  /-- `checkpoint_result` returned `Ok`: the file is replaced by one with the checkpoint alone -/
  | checkpoint (height : UInt64) (frame : List UInt8)
      (hframe : ConsensusWal.encodeEntryFrame codec (.Checkpoint height) "consensus WAL checkpoint"
        = .ok frame) :
      WalStep codec may s ⟨frame, ⟨[.Checkpoint height]⟩, []⟩

/-- The states reached from a file in any condition, before anything is appended. -/
inductive WalRun (codec : WalCodec) (may : List UInt8 → Prop) : WalState → Prop
  | start (file : List UInt8) : WalRun codec may ⟨file, ConsensusWal.open codec file, []⟩
  | step {s s' : WalState} : WalRun codec may s → WalStep codec may s s' → WalRun codec may s'

/-- The file is whole frames. -/
def WholeFrames (codec : WalCodec) (file : List UInt8) : Prop :=
  ∃ entries, (ConsensusWal.frames codec).Frames entries file

theorem WalStep.keeps (h : WalStep codec (WholeFrames codec) s s')
    (hk : (ConsensusWal.frames codec).Keeps s.acked s.file) :
    (ConsensusWal.frames codec).Keeps s'.acked s'.file := by
  cases h with
  | append entry frame hmay hframe =>
    obtain ⟨entries, hwhole⟩ := hmay
    exact hk.append_frame hwhole (ConsensusWal.frame_of_encodeEntryFrame hframe)
  | failed entry frame kept hframe hkept => exact hk.append kept
  | crash entry frame kept hframe hkept => exact hk.append kept
  | checkpoint height frame hframe => exact ⟨[], [], frame, .nil, rfl, List.Sublist.refl _⟩

/-- **What was acknowledged is loaded**: in every run in which no entry is appended behind a torn
    frame, the next `open` finds every entry appended with `Ok`, in order. -/
theorem acked_entries_loaded {codec : WalCodec} {s : WalState}
    (h : WalRun codec (WholeFrames codec) s) :
    s.acked.Sublist (ConsensusWal.open codec s.file).entries := by
  have hk : (ConsensusWal.frames codec).Keeps s.acked s.file := by
    induction h with
    | start file => exact ⟨[], [], file, .nil, rfl, List.Sublist.refl _⟩
    | step _ hstep ih => exact hstep.keeps ih
  exact hk.sublist_read

end

/-- `bincode` on `HeightStarted` entries: the variant index, then the height.  Everything else is
    refused. -/
def heightCodec : WalCodec where
  serialize
    | .HeightStarted height => .ok (leBytes 4 0 ++ leBytes 8 height.toNat)
    | _ => .error "the size limit has been reached"
  deserialize bytes :=
    if bytes.length = 12 ∧ bytes.take 4 = leBytes 4 0 then
      .ok (.HeightStarted (UInt64.ofNat (ofLeBytes (bytes.drop 4))))
    else .error "invalid value"
  round_trip := by
    intro entry bytes h
    cases entry with
    | HeightStarted height =>
      obtain rfl := Except.ok.inj h
      have hback : ofLeBytes (leBytes 8 height.toNat) = height.toNat :=
        ofLeBytes_leBytes 8 _ height.toNat_lt
      rw [if_pos ⟨by simp, List.take_left' (length_leBytes 4 0)⟩,
        List.drop_left' (length_leBytes 4 0), hback, UInt64.ofNat_toNat]
    | _ => exact nomatch h
  limited := by
    intro entry bytes h
    cases entry with
    | HeightStarted height =>
      obtain rfl := Except.ok.inj h
      simp [WAL_ENTRY_CODEC_LIMIT_BYTES]
    | _ => exact nomatch h

/-- A crash keeps one byte of the first frame; after the restart a second entry is appended with
    `Ok`, and the next `open` loads nothing. -/
theorem acked_entry_lost : ∃ (_ : Crypto) (codec : WalCodec) (s : WalState),
    WalRun codec (fun _ => True) s ∧ s.acked = [.HeightStarted 2]
      ∧ (ConsensusWal.open codec s.file).entries = [] := by
  let _ : Crypto := Crypto.plain
  refine ⟨Crypto.plain, heightCodec, _, .step (.step (.start [])
    (.crash (.HeightStarted 1) _ [12] rfl ⟨_, rfl⟩)) (.append (.HeightStarted 2) _ trivial rfl),
    rfl, ?_⟩
  decide +kernel

/-- Two entries, and a crash that keeps three bytes of a third. -/
theorem acked_entries_loaded_torn : ∃ (_ : Crypto) (s : WalState),
    s.acked = [.HeightStarted 1, .HeightStarted 2]
      ∧ s.acked.Sublist (ConsensusWal.open heightCodec s.file).entries := by
  let _ : Crypto := Crypto.plain
  have hfirst : WholeFrames heightCodec [] := ⟨[], .nil⟩
  have hframe : (ConsensusWal.frames heightCodec).frame (.HeightStarted 1) = some _ := rfl
  have hsecond := FrameCodec.Frames.nil.append_frame hframe
  exact ⟨Crypto.plain, _, rfl, acked_entries_loaded (.step (.step (.step (.start [])
    (.append (.HeightStarted 1) _ hfirst rfl)) (.append (.HeightStarted 2) _ ⟨_, hsecond⟩ rfl))
    (.crash (.HeightStarted 3) _ [12, 0, 0] rfl ⟨_, rfl⟩))⟩

end Lichen
