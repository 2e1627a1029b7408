/-
  Binary search for the last accepted number.

  The loop narrows `low ..= high` around a number that is accepted while its successor is not.  No
  order is needed on what is accepted: every turn keeps `low` accepted and whatever stands just
  above `high` rejected, so where the two meet is such a number.  The interval halves at every turn,
  hence a fuel of as many turns as it has bits.
-/
import Lichen.Base.Machine

namespace Base
variable {ε : Type}

/-- ```
    while low < high {
        let middle = low + (high - low).div_ceil(2);
        if accepts(middle)? { low = middle } else { high = middle - 1 }
    }
    ``` -/
def bisect (accepts : Nat → Except ε Bool) : Nat → Nat → Nat → Except ε Nat
  | 0, low, _ => .ok low
  | fuel + 1, low, high =>
    if low < high then
      let middle := low + (high - low + 1) / 2
      accepts middle >>= fun ok =>
        if ok then bisect accepts fuel middle high else bisect accepts fuel low (middle - 1)
    else .ok low

/-- The search ends, on an accepted number that is the bound or has a rejected successor. -/
theorem bisect_ok {accepts : Nat → Except ε Bool} {p : Nat → Bool}
    (hp : ∀ x, x ≤ bound → accepts x = .ok (p x)) :
    ∀ {fuel low high : Nat}, low ≤ high → high ≤ bound → high - low < 2 ^ fuel →
      p low = true → (high = bound ∨ p (high + 1) = false) →
      ∃ r, bisect accepts fuel low high = .ok r ∧ low ≤ r ∧ r ≤ bound ∧ p r = true
        ∧ (r = bound ∨ p (r + 1) = false) := by
  intro fuel
  induction fuel with
  | zero =>
    grind [bisect]
  | succ fuel ih =>
    intro low high _ hb _ hlow hhigh
    rw [bisect]
    by_cases hlh : low < high
    · rw [if_pos hlh]
      have hmid : low + (high - low + 1) / 2 ≤ bound := by omega
      show ∃ r, (accepts (low + (high - low + 1) / 2) >>= _) = .ok r ∧ _
      rw [hp _ hmid, bind_ok]
      cases hm : p (low + (high - low + 1) / 2) with
      | true =>
        have hhalf : high - (low + (high - low + 1) / 2) < 2 ^ fuel := by omega
        obtain ⟨r, hr, hge, hrb, hpr, hend⟩ := ih (by omega) hb hhalf hm hhigh
        exact ⟨r, hr, by omega, hrb, hpr, hend⟩
      | false =>
        have hsucc : low + (high - low + 1) / 2 - 1 + 1 = low + (high - low + 1) / 2 := by omega
        have hhalf : low + (high - low + 1) / 2 - 1 - low < 2 ^ fuel := by omega
        rw [← hsucc] at hm
        obtain ⟨r, hr, hge, hrb, hpr, hend⟩ := ih (by omega) (by omega) hhalf hlow (.inr hm)
        exact ⟨r, hr, hge, hrb, hpr, hend⟩
    · grind

end Base
