/-
  Integer square roots by Newton's method.

  The program has four of them (`sdk/src/dex.rs`, `contracts/prediction_market/src/lib.rs`,
  `core/src/consensus.rs`, `contracts/sporepump/src/lib.rs`).  All of them go from `x` to
  `(x + n / x) / 2` for as long as that is smaller.  No step falls below the root, and where the
  descent stops `x * x ≤ n`.  An addition that left the width of its type would end the run in
  `none`; none does.
-/
import Lichen.Base.Machine
import Lichen.Core.Stake

open Base
namespace Lichen

/-! ## The functions

`integer_sqrt` of the consensus is `integerSqrt`, whose loop has fuel and no width. -/

/-- ```
    loop {
        let next = (x + n / x) / 2;
        if next >= x { return x; }
        x = next;
    }
    ``` -/
def newtonLoop (bits n x : Nat) : Option Nat :=
  if x + n / x < 2 ^ bits then
    if (x + n / x) / 2 ≥ x then some x else newtonLoop bits n ((x + n / x) / 2)
  else none
termination_by x

/-- ```
    while y < x {
        x = y;
        y = (x + n / x) / 2;
    }
    x
    ``` -/
def newtonWhile (bits n x y : Nat) : Option Nat :=
  if y < x then
    if y + n / y < 2 ^ bits then newtonWhile bits n y ((y + n / y) / 2) else none
  else some x
termination_by x

/-- `Pool::sqrt`. -/
def Pool.sqrt (x : Nat) : Option Nat :=
  if x = 0 then some 0 else (newtonWhile 128 x x ((x + 1) / 2)).map (· % 2 ^ 64)

/-- `isqrt_u128` of the prediction market. -/
def isqrtU128 (n : Nat) : Option Nat :=
  if n = 0 then some 0 else newtonWhile 128 n n ((n + 1) / 2)

/-- `integer_sqrt_u128` of SporePump. -/
def integerSqrtU128 (value : Nat) : Option Nat :=
  if value = 0 then some 0
  else (newtonLoop 128 value (2 ^ ((value.log2 + 1 + 1) / 2))).map (min · U64.MAX)

/-! ## The descent -/

/-- `r` is the root of `n`, rounded down. -/
def IsRoot (n r : Nat) : Prop := r * r ≤ n ∧ n < (r + 1) * (r + 1)

instance (n r : Nat) : Decidable (IsRoot n r) := inferInstanceAs (Decidable (_ ∧ _))

variable {n : Nat}

/-- **One step** does not fall below the root: the mean of `x` and `n / x` is at least as large. -/
theorem newton_step (hx : 0 < x) : n < ((x + n / x) / 2 + 1) * ((x + n / x) / 2 + 1) := by
  have hdiv : n < x * (n / x + 1) := Nat.lt_mul_div_succ n hx
  generalize n / x = q at *
  obtain ⟨m, hm⟩ : ∃ m, (x + q) / 2 = m := ⟨_, rfl⟩
  rw [hm]
  -- `4 x (q + 1) ≤ (x + q + 1) ^ 2 ≤ (2 (m + 1)) ^ 2`
  have hsum : x + (q + 1) ≤ 2 * (m + 1) := by omega
  have hsquare : (x + (q + 1)) * (x + (q + 1)) ≤ 2 * (m + 1) * (2 * (m + 1)) :=
    Nat.mul_le_mul hsum hsum
  have hmean : 4 * (x * (q + 1)) ≤ (x + (q + 1)) * (x + (q + 1)) := by
    zify
    nlinarith [sq_nonneg ((x : ℤ) - (q + 1))]
  linarith

/-- A descent from above the root ends on it, if no addition of it leaves the width. -/
theorem newtonLoop_isRoot (hx : 0 < x) (hn : 0 < n) (habove : n < (x + 1) * (x + 1))
    (hfit : ∀ z, 0 < z → z ≤ x → n < (z + 1) * (z + 1) → z + n / z < 2 ^ bits) :
    ∃ r, newtonLoop bits n x = some r ∧ IsRoot n r := by
  induction x using Nat.strong_induction_on with
  | _ x ih =>
    have hdiv := Nat.div_mul_le_self n x
    rw [newtonLoop, if_pos (hfit x hx le_rfl habove)]
    by_cases hstop : (x + n / x) / 2 ≥ x
    · rw [if_pos hstop]
      have hle : x ≤ n / x := by omega
      exact ⟨x, rfl, (Nat.mul_le_mul_right x hle).trans hdiv, habove⟩
    · rw [if_neg hstop]
      have hpos : 0 < (x + n / x) / 2 := by
        by_contra hzero
        have hroot := newton_step (n := n) hx
        rw [Nat.eq_zero_of_not_pos hzero] at hroot
        omega
      exact ih _ (by omega) hpos (newton_step hx) fun z hz hle => hfit z hz (by omega)

/-- The two loops do the same from the second value on. -/
theorem newtonWhile_eq :
    newtonWhile bits n x y = if y < x then newtonLoop bits n y else some x := by
  fun_induction newtonWhile bits n x y with
  | case1 x y hlt hfit ih =>
    rw [ih, if_pos hlt, newtonLoop.eq_1 bits n y, if_pos hfit]
    by_cases hstop : (y + n / y) / 2 ≥ y
    · rw [if_neg (by omega), if_pos hstop]
    · rw [if_pos (by omega), if_neg hstop]
  | case2 x y hlt hfit => rw [newtonLoop, if_pos hlt, if_neg hfit]
  | case3 x y hlt => rw [if_neg hlt]

/-- From `n` itself the second value is half of it, and from there every sum is at most `n`. -/
theorem newtonWhile_isRoot (hn : 0 < n) (hbits : 3 ≤ bits) (hlt : n < 2 ^ bits) :
    ∃ r, newtonWhile bits n n ((n + 1) / 2) = some r ∧ IsRoot n r := by
  rw [newtonWhile_eq]
  split
  · refine newtonLoop_isRoot (by omega) hn ?_ ?_
    · have hstep := newton_step (n := n) hn
      rwa [Nat.div_self hn] at hstep
    · intro z _ _ _
      by_cases hone : z = 1
      · subst hone
        have height : 2 ^ 3 ≤ 2 ^ bits := Nat.pow_le_pow_right (by decide) hbits
        omega
      · have hhalf : n / z ≤ n / 2 := Nat.div_le_div_left (by omega) (by decide)
        omega
  · obtain rfl : n = 1 := by omega
    exact ⟨1, rfl, by decide⟩

/-- A loop with fuel takes the same steps. -/
theorem integerSqrtLoop_of_newtonWhile (h : newtonWhile bits n x y = some r) (hfuel : x ≤ fuel) :
    integerSqrtLoop n fuel x y = r := by
  induction fuel generalizing x y with
  | zero =>
    rw [newtonWhile, if_neg (by omega)] at h
    exact Option.some.inj h
  | succ fuel ih =>
    rw [newtonWhile] at h
    rw [integerSqrtLoop]
    split at h
    · next hlt =>
      rw [if_pos hlt]
      split at h
      · exact ih h (by omega)
      · cases h
    · next hge =>
      rw [if_neg hge]
      exact Option.some.inj h

/-- A power of two above the root is a start as well. -/
theorem newtonLoop_pow_isRoot (hn : 0 < n) (hlt : n < 2 ^ 128) :
    ∃ r, newtonLoop 128 n (2 ^ ((n.log2 + 1 + 1) / 2)) = some r ∧ IsRoot n r := by
  have hlog : n.log2 < 128 := (Nat.log2_lt hn.ne').mpr hlt
  have hle : 2 ^ ((n.log2 + 1 + 1) / 2) ≤ 2 ^ 64 := Nat.pow_le_pow_right (by decide) (by omega)
  have habove : n < 2 ^ ((n.log2 + 1 + 1) / 2) * 2 ^ ((n.log2 + 1 + 1) / 2) := by
    rw [← Nat.pow_add]
    exact Nat.lt_log2_self.trans_le (Nat.pow_le_pow_right (by decide) (by omega))
  refine newtonLoop_isRoot (Nat.two_pow_pos _) hn (habove.trans ?_) ?_
  · exact Nat.mul_self_lt_mul_self (Nat.lt_succ_self _)
  · intro z hz _ _
    -- `n / z ≤ z + 2`
    have hq : n / z < z + 3 := (Nat.div_lt_iff_lt_mul hz).mpr (by nlinarith)
    omega

theorem IsRoot.lt (h : IsRoot n r) (hlt : n < 2 ^ 128) : r < 2 ^ 64 := by
  by_contra hge
  have hle : 2 ^ 64 * 2 ^ 64 ≤ r * r := Nat.mul_le_mul (Nat.le_of_not_lt hge) (Nat.le_of_not_lt hge)
  have := h.1
  omega

/-- The branch for zero, which all of them have. -/
theorem exists_isRoot (h : 0 < n → ∃ r, result = some r ∧ IsRoot n r) :
    ∃ r, (if n = 0 then some 0 else result) = some r ∧ IsRoot n r := by
  split
  · next hzero =>
    subst hzero
    exact ⟨0, rfl, by decide⟩
  · next hn => exact h (Nat.pos_of_ne_zero hn)

/-- **The integer square roots are exact**, over the whole range of their arguments, and no
    addition on the way leaves its type. -/
theorem integer_sqrts_exact :
    (∀ n : BitVec 128, ∃ r, Pool.sqrt n.toNat = some r ∧ IsRoot n.toNat r)
      ∧ (∀ n : BitVec 128, ∃ r, isqrtU128 n.toNat = some r ∧ IsRoot n.toNat r)
      ∧ (∀ value : UInt64, IsRoot value.toNat (integerSqrt value)
        ∧ newtonWhile 64 value.toNat value.toNat ((value.toNat + 1) / 2)
          = some (integerSqrt value))
      ∧ ∀ n : BitVec 128, ∃ r, integerSqrtU128 n.toNat = some r ∧ IsRoot n.toNat r := by
  refine ⟨fun n => exists_isRoot fun hn => ?_,
    fun n => exists_isRoot fun hn => newtonWhile_isRoot hn (by decide) n.isLt,
    fun value => ?_, fun n => exists_isRoot fun hn => ?_⟩
  · obtain ⟨r, hr, hroot⟩ := newtonWhile_isRoot hn (by decide) n.isLt
    rw [hr, Option.map_some, Nat.mod_eq_of_lt (hroot.lt n.isLt)]
    exact ⟨r, rfl, hroot⟩
  · by_cases hzero : value = 0
    · subst hzero
      decide +kernel
    · obtain ⟨r, hr, hroot⟩ := newtonWhile_isRoot
        (Nat.pos_of_ne_zero fun h => hzero (UInt64.toNat_inj.mp h)) (by decide) value.toNat_lt
      rw [integerSqrt, if_neg hzero, integerSqrtLoop_of_newtonWhile hr le_rfl]
      exact ⟨hroot, hr⟩
  · obtain ⟨r, hr, hroot⟩ := newtonLoop_pow_isRoot hn n.isLt
    have hmax : min r U64.MAX = r := min_eq_left (Nat.le_pred_of_lt (hroot.lt n.isLt))
    rw [hr, Option.map_some, hmax]
    exact ⟨r, rfl, hroot⟩

end Lichen
