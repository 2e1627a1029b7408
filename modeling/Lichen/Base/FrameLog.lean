/-
  A log of checksummed frames in an append-only file.

  A frame is the length of its payload in four little-endian bytes, the payload, and a four-byte
  checksum.  The reader takes frames from the front and stops at the first one that is cut short,
  has the wrong checksum, or does not decode; it never looks behind it.

  So what can be read back is governed by one fact: reading whole frames and then anything else
  gives the frames' entries and then what reading the rest gives (`read_frames_append`).  A torn
  tail costs nothing by itself — but whatever is appended behind it is read as part of it.
-/
import Mathlib.Data.List.Basic
import Lichen.Base.Bytes

namespace Base
open List

/-- How entries become payloads and back, and what protects a payload. -/
structure FrameCodec (α : Type) where
  encode : α → Option (List UInt8)
  decode : List UInt8 → Option α
  checksum : List UInt8 → List UInt8
  decode_encode : ∀ {a payload}, encode a = some payload → decode payload = some a
  length_encode : ∀ {a payload}, encode a = some payload → payload.length < 2 ^ 32
  length_checksum : ∀ payload, (checksum payload).length = 4

namespace FrameCodec

variable (c : FrameCodec α)

def frame (a : α) : Option (List UInt8) :=
  (c.encode a).map fun payload => leBytes 4 payload.length ++ (payload ++ c.checksum payload)

/-- The reading loop; every turn takes at least eight bytes, so the length of the file is fuel
    enough. -/
def readFrom : Nat → List UInt8 → List α
  | 0, _ => []
  | fuel + 1, data =>
    if data.length < 4 then []
    else
      let len := ofLeBytes (data.take 4)
      let rest := data.drop 4
      if rest.length < len + 4 then []
      else
        let payload := rest.take len
        if (rest.drop len).take 4 ≠ c.checksum payload then []
        else match c.decode payload with
          | none => []
          | some a => a :: readFrom fuel (rest.drop (len + 4))

def read (data : List UInt8) : List α := c.readFrom data.length data

/-- More fuel than bytes makes no difference. -/
theorem readFrom_eq : ∀ (fuel fuel' : Nat) (data : List UInt8), data.length ≤ fuel →
    data.length ≤ fuel' → c.readFrom fuel data = c.readFrom fuel' data := by
  intro fuel
  induction fuel with
  | zero =>
    intro fuel' data hle _
    have hnil : data.length < 4 := by omega
    cases fuel' with
    | zero => rfl
    | succ fuel' => rw [readFrom, readFrom, if_pos hnil]
  | succ fuel ih =>
    intro fuel' data _ _
    cases fuel' with
    | zero =>
      have hnil : data.length < 4 := by omega
      rw [readFrom, readFrom, if_pos hnil]
    | succ fuel' =>
      rw [readFrom, readFrom]
      split
      · rfl
      -- the rest is shorter by the frame that has been read
      have hrest : ∀ n, ((data.drop 4).drop n).length ≤ data.length - 4 := by
        intro n
        rw [length_drop, length_drop]
        omega
      dsimp only
      split
      · rfl
      split
      · rfl
      split
      · rfl
      rw [ih fuel' _ (le_trans (hrest _) (by omega)) (le_trans (hrest _) (by omega))]

/-- **A whole frame in front is read**, whatever follows it. -/
theorem read_frame_append (hf : c.frame a = some f)
    (data : List UInt8) : c.read (f ++ data) = a :: c.read data := by
  obtain ⟨payload, henc, rfl⟩ := Option.map_eq_some_iff.mp hf
  have hsum := c.length_checksum payload
  have hlen : ofLeBytes (leBytes 4 payload.length) = payload.length :=
    ofLeBytes_leBytes 4 _ (c.length_encode henc)
  have hhead : leBytes 4 payload.length ++ (payload ++ c.checksum payload) ++ data
      = leBytes 4 payload.length ++ (payload ++ (c.checksum payload ++ data)) := by
    rw [append_assoc, append_assoc]
  rw [hhead, read]
  generalize hn : (leBytes 4 payload.length ++ (payload ++ (c.checksum payload ++ data))).length = n
  have hn' : 8 + payload.length + data.length = n := by
    rw [← hn]
    simp only [length_append, length_leBytes, hsum]
    omega
  cases n with
  | zero => omega
  | succ n =>
    rw [readFrom, if_neg (by omega)]
    have htake : (leBytes 4 payload.length ++ (payload ++ (c.checksum payload ++ data))).take 4
        = leBytes 4 payload.length := by
      rw [take_append_of_le_length (by rw [length_leBytes])]
      exact take_of_length_le (by rw [length_leBytes])
    have hdrop : (leBytes 4 payload.length ++ (payload ++ (c.checksum payload ++ data))).drop 4
        = payload ++ (c.checksum payload ++ data) := by
      rw [drop_append_of_le_length (by rw [length_leBytes]),
        drop_of_length_le (by rw [length_leBytes]), nil_append]
    rw [htake, hdrop, hlen, if_neg (by simp only [length_append, hsum]; omega),
      take_left, drop_left, take_left' hsum, if_neg (by simp), c.decode_encode henc]
    have hrest : (payload ++ (c.checksum payload ++ data)).drop (payload.length + 4) = data := by
      rw [← drop_drop, drop_left, drop_left' hsum]
    show a :: c.readFrom n _ = _
    rw [hrest, c.readFrom_eq n data.length data (by omega) (le_refl _)]
    rfl

/-- `data` is the frames of `as`, one after the other. -/
inductive Frames : List α → List UInt8 → Prop
  | nil : Frames [] []
  | cons {a f as data} : c.frame a = some f → Frames as data → Frames (a :: as) (f ++ data)

variable {c} {as : List α}

theorem Frames.append_frame (h : c.Frames as data)
    (hf : c.frame a = some f) : c.Frames (as ++ [a]) (data ++ f) := by
  induction h with
  | nil =>
    have hone := Frames.cons hf .nil
    rw [append_nil] at hone
    exact hone
  | cons hg _ ih =>
    rw [append_assoc]
    exact .cons hg ih

/-- **Whole frames are read back**, and then the rest is read. -/
theorem read_frames_append (h : c.Frames as data)
    (rest : List UInt8) : c.read (data ++ rest) = as ++ c.read rest := by
  induction h with
  | nil => rfl
  | @cons a f as data hf _ ih =>
    rw [append_assoc, c.read_frame_append hf, ih]
    rfl

theorem read_frames (h : c.Frames as data) : c.read data = as := by
  have hread := read_frames_append h []
  rw [append_nil] at hread
  rw [hread]
  exact append_nil as

/-- The file starts with whole frames among whose entries are those of `kept`, in order. -/
def Keeps (c : FrameCodec α) (kept : List α) (file : List UInt8) : Prop :=
  ∃ as data tail, c.Frames as data ∧ file = data ++ tail ∧ kept.Sublist as

theorem Keeps.sublist_read (h : c.Keeps kept file) : kept.Sublist (c.read file) := by
  obtain ⟨as, data, tail, hframes, rfl, hsub⟩ := h
  rw [read_frames_append hframes]
  exact hsub.trans (sublist_append_left _ _)

/-- Nothing written behind takes an entry away. -/
theorem Keeps.append (h : c.Keeps kept file) (more : List UInt8) : c.Keeps kept (file ++ more) := by
  grind [Keeps]

/-- A frame written behind whole frames is kept as well. -/
theorem Keeps.append_frame
    (h : c.Keeps kept file) (hwhole : c.Frames as file) (hf : c.frame a = some f) :
    c.Keeps (kept ++ [a]) (file ++ f) := by
  have hsub := h.sublist_read
  rw [read_frames hwhole] at hsub
  refine ⟨as ++ [a], file ++ f, [], hwhole.append_frame hf, (append_nil _).symm, ?_⟩
  exact hsub.append (List.Sublist.refl _)

end FrameCodec
end Base
