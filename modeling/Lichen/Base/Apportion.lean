/-
  Dividing a budget in proportion to weights, in one pass.

  Every share is `budget * weight / total` rounded down, except the last, which is whatever the
  others have left.  The loop is `tryFoldLast`, a fold that tells its body when it is in its last
  turn.  What carries the proofs is `Owing`: the shares handed out so far, times the total, together
  with the budget times the weights to come, are at most the budget times the total.  Nothing is
  handed out twice, so the remainder never underflows, and the last share makes the sum exact.
-/
import Lichen.Base.Machine

namespace Base
variable {ε α β : Type}

/-! ## A loop that knows its last turn -/

/-- `for (index, x) in l.iter().enumerate() { let last = index + 1 == l.len(); … }`. -/
def tryFoldLast (f : Bool → β → α → Except ε β) : β → List α → Except ε β
  | b, [] => .ok b
  | b, a :: l => f l.isEmpty b a >>= fun b' => tryFoldLast f b' l

variable {f : Bool → β → α → Except ε β}

theorem tryFoldLast_cons_eq_ok : tryFoldLast f b (a :: l) = .ok c ↔
      ∃ b', f l.isEmpty b a = .ok b' ∧ tryFoldLast f b' l = .ok c := by
  rw [tryFoldLast, bind_eq_ok]

theorem tryFoldLast_map {γ : Type} (f : Bool → β → α → Except ε β) (g : γ → α) (l : List γ) :
    ∀ b, tryFoldLast f b (l.map g) = tryFoldLast (fun last b c => f last b (g c)) b l := by
  induction l with
  | nil => exact fun b => rfl
  | cons c l ih =>
    simp_all [tryFoldLast]

/-- A loop whose turns all succeed, with an invariant of the state and the elements to come. -/
theorem tryFoldLast_total {P : β → List α → Prop}
    (hstep : ∀ b a l, P b (a :: l) → ∃ b', f l.isEmpty b a = .ok b' ∧ P b' l) :
    ∀ {l : List α} {b : β}, P b l → ∃ c, tryFoldLast f b l = .ok c ∧ P c [] := by
  intro l
  induction l with
  | nil =>
    intro b hb
    exact ⟨b, rfl, hb⟩
  | cons a l ih =>
    grind [tryFoldLast_cons_eq_ok]

/-- What every turn preserves holds at the end. -/
theorem tryFoldLast_induct {P : β → Prop}
    (hstep : ∀ last b a b', P b → f last b a = .ok b' → P b') :
    ∀ {l : List α} {b c : β}, P b → tryFoldLast f b l = .ok c → P c := by
  intro l
  induction l with
  | nil =>
    intro b c hb h
    exact Except.ok.inj h ▸ hb
  | cons a l ih =>
    grind [tryFoldLast_cons_eq_ok]

/-! ## Shares -/

/-- `value * numerator / denominator`, computed in 128 bits. -/
def mulDiv (value numerator denominator : Nat) : Nat :=
  U128.toU64 (U128.saturatingMul value numerator / denominator)

/-- A share of a 64-bit value that is not larger than the value. -/
theorem mulDiv_of_le (hv : value < 2 ^ 64)
    (hd : denominator < 2 ^ 64) (hle : numerator ≤ denominator) :
    mulDiv value numerator denominator = value * numerator / denominator
      ∧ value * numerator / denominator ≤ value := by
  have hdiv : value * numerator / denominator ≤ value := by
    rcases Nat.eq_zero_or_pos denominator with h0 | hpos
    · rw [h0, Nat.div_zero]
      exact Nat.zero_le value
    · calc value * numerator / denominator ≤ value * denominator / denominator :=
            Nat.div_le_div_right (Nat.mul_le_mul_left value hle)
        _ = value := Nat.mul_div_cancel value hpos
  refine ⟨?_, hdiv⟩
  unfold mulDiv
  rw [U128.saturatingMul_of_lt hv (by omega), U128.toU64_of_lt (by omega)]

/-- The share of one element: in proportion to its weight, or what is left for the last. -/
def apportion (budget total distributed weight : Nat) (last : Bool) (underflow : ε) :
    Except ε Nat :=
  if last = true then okOr (U64.checkedSub budget distributed) underflow
  else .ok (mulDiv budget weight total)

/-- What has been handed out leaves enough for the weights to come. -/
structure Owing (budget total distributed rest : Nat) : Prop where
  within : distributed ≤ budget
  enough : distributed * total + budget * rest ≤ budget * total

variable {budget total : Nat}

theorem Owing.start : Owing budget total 0 total := ⟨Nat.zero_le _, by rw [Nat.zero_mul, zero_add]⟩

/-- **One share.** -/
theorem Owing.apportion (h : Owing budget total distributed (weight + rest)) (hb : budget < 2 ^ 64)
    (ht : total < 2 ^ 64) (last : Bool) (underflow : ε) :
    ∃ x, apportion budget total distributed weight last underflow = .ok x
      ∧ distributed + x ≤ budget ∧ (last = true → distributed + x = budget)
      ∧ (last = false → Owing budget total (distributed + x) rest) := by
  obtain ⟨hwithin, henough⟩ := h
  unfold Base.apportion
  cases last with
  | true =>
    refine ⟨budget - distributed, ?_, by omega, fun _ => by omega, fun hl => absurd hl (by simp)⟩
    rw [if_pos rfl, okOr_eq_ok, U64.checkedSub_eq_some]
    exact ⟨hwithin, rfl⟩
  | false =>
    rw [Nat.mul_add] at henough
    rcases Nat.eq_zero_or_pos budget with h0 | hpos
    · -- nothing to divide
      subst h0
      have hz : mulDiv 0 weight total = 0 := by
        simp [mulDiv, U128.saturatingMul, U128.toU64]
      exact ⟨0, by rw [if_neg (by simp), hz], by omega, fun hl => absurd hl (by simp),
        fun _ => ⟨by omega, by rw [add_zero]; omega⟩⟩
    · have hle : weight ≤ total := by
        have hmul : budget * weight ≤ budget * total := by omega
        exact Nat.le_of_mul_le_mul_left hmul hpos
      obtain ⟨hshare, -⟩ := mulDiv_of_le hb ht hle
      have hfloor : budget * weight / total * total ≤ budget * weight := Nat.div_mul_le_self _ _
      have hsum : (distributed + budget * weight / total) * total + budget * rest
          ≤ budget * total := by
        rw [Nat.add_mul]
        omega
      have hin : distributed + budget * weight / total ≤ budget := by
        rcases Nat.eq_zero_or_pos total with ht0 | htpos
        · rw [ht0, Nat.div_zero]
          exact hwithin
        · refine Nat.le_of_mul_le_mul_right ?_ htpos
          omega
      exact ⟨_, by rw [if_neg (by simp), hshare], hin, fun hl => absurd hl (by simp),
        fun _ => ⟨hin, hsum⟩⟩

/-- A division of the budget that is under way: what is left goes to `weights`. -/
structure Due (budget total distributed : Nat) (weights : List Nat) : Prop where
  owing : Owing budget total distributed weights.sum
  done : weights = [] → distributed = budget

theorem Due.start (h : weights ≠ []) (hsum : weights.sum = total) : Due budget total 0 weights :=
  ⟨hsum ▸ .start, fun hnil => absurd hnil h⟩

/-- **One turn of a division.** -/
theorem Due.apportion (h : Due budget total distributed (weight :: weights)) (hb : budget < 2 ^ 64)
    (ht : total < 2 ^ 64) (underflow : ε) :
    ∃ x, Base.apportion budget total distributed weight weights.isEmpty underflow = .ok x
      ∧ distributed + x ≤ budget ∧ Due budget total (distributed + x) weights := by
  have howing : Owing budget total distributed (weight + weights.sum) := by
    rw [← List.sum_cons]
    exact h.owing
  obtain ⟨x, hx, hle, hlast, hmore⟩ := howing.apportion hb ht weights.isEmpty underflow
  refine ⟨x, hx, hle, ?_⟩
  cases weights with
  | nil =>
    have hall : distributed + x = budget := hlast rfl
    exact ⟨⟨hle, by rw [hall, List.sum_nil]; omega⟩, fun _ => hall⟩
  | cons w ws => exact ⟨hmore rfl, fun hnil => absurd hnil (by simp)⟩

end Base
