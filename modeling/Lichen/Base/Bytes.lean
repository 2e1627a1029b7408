/-
  Fixed-width byte encodings of natural numbers.

  `leBytes k n` is the `k`-byte little-endian encoding (`to_le_bytes`), `beBytes k n` the
  big-endian one.  Both have length `k` and are injective below `256 ^ k`, so that a message made
  of fixed-width fields can be taken apart again with `List.append_inj`.
-/
import Mathlib.Data.Nat.Digits.Defs

namespace Base

/-- The `k` low bytes of `n`, least significant first. -/
def leBytes : Nat → Nat → List UInt8
  | 0, _ => []
  | k + 1, n => UInt8.ofNat (n % 256) :: leBytes k (n / 256)

/-- The `k` low bytes of `n`, most significant first. -/
def beBytes (k n : Nat) : List UInt8 := (leBytes k n).reverse

/-- The number whose little-endian bytes are `bs` (`from_le_bytes`). -/
def ofLeBytes : List UInt8 → Nat
  | [] => 0
  | b :: bs => b.toNat + 256 * ofLeBytes bs

/-- `from_be_bytes`. -/
def ofBeBytes (bytes : List UInt8) : Nat := ofLeBytes bytes.reverse

/-- The 32-byte array with these bytes. -/
def ofArray (bytes : List UInt8) : BitVec 256 := BitVec.ofNat 256 (ofBeBytes bytes)

@[simp] theorem length_leBytes (k n : Nat) : (leBytes k n).length = k := by
  induction k generalizing n with
  | zero => rfl
  | succ k ih => rw [leBytes, List.length_cons, ih]

@[simp] theorem length_beBytes (k n : Nat) : (beBytes k n).length = k := by
  rw [beBytes, List.length_reverse, length_leBytes]

/-- Decoding undoes encoding, as long as the number fits in `k` bytes. -/
theorem ofLeBytes_leBytes (k n : Nat) (h : n < 256 ^ k) : ofLeBytes (leBytes k n) = n := by
  induction k generalizing n with
  | zero => rw [pow_zero] at h; rw [leBytes, ofLeBytes]; omega
  | succ k ih =>
    have hdiv : n / 256 < 256 ^ k := by
      rw [pow_succ] at h
      exact Nat.div_lt_of_lt_mul (by rw [Nat.mul_comm]; exact h)
    have hmod : (UInt8.ofNat (n % 256)).toNat = n % 256 := by
      rw [UInt8.toNat_ofNat']; omega
    rw [leBytes, ofLeBytes, ih _ hdiv, hmod]
    omega

theorem leBytes_inj (hm : m < 256 ^ k) (hn : n < 256 ^ k)
    (h : leBytes k m = leBytes k n) : m = n := by
  rw [← ofLeBytes_leBytes k m hm, h, ofLeBytes_leBytes k n hn]

theorem beBytes_inj (hm : m < 256 ^ k) (hn : n < 256 ^ k) (h : beBytes k m = beBytes k n) : m = n :=
  leBytes_inj hm hn (List.reverse_inj.mp h)

end Base
