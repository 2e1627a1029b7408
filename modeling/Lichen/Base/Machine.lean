/-
  Fixed-width unsigned integers as natural numbers, and fallible steps.

  A `u64` or `u128` is the number it holds.  Nothing keeps such a number below its bound except the
  operation that made it, so every operation that could leave the range is one of the checked,
  saturating or wrapping ones below, chosen as the program chooses it.

  A fallible step is an `Except`.  The rules at the end read a successful run backwards: which
  checks it passed and which values it went through, one rule per way of sequencing.
-/
import Mathlib.Algebra.Order.Ring.Nat

namespace Base
open List

/-! ## Machine integers -/

namespace U64

/-- `u64::MAX`. -/
def MAX : Nat := 2 ^ 64 - 1

/-- `checked_add`. -/
def checkedAdd (a b : Nat) : Option Nat := if a + b < 2 ^ 64 then some (a + b) else none

/-- `checked_sub`. -/
def checkedSub (a b : Nat) : Option Nat := if b ≤ a then some (a - b) else none

/-- `checked_mul`. -/
def checkedMul (a b : Nat) : Option Nat := if a * b < 2 ^ 64 then some (a * b) else none

/-- `saturating_add`. -/
def saturatingAdd (a b : Nat) : Nat := min (a + b) MAX

/-- `saturating_sub`. -/
def saturatingSub (a b : Nat) : Nat := a - b

/-- `saturating_mul`. -/
def saturatingMul (a b : Nat) : Nat := min (a * b) MAX

/-- `+` in a release build. -/
def wrappingAdd (a b : Nat) : Nat := (a + b) % 2 ^ 64

/-- `-` in a release build. -/
def wrappingSub (a b : Nat) : Nat := (a + 2 ^ 64 - b) % 2 ^ 64

/-- `abs_diff`. -/
def absDiff (a b : Nat) : Nat := (a - b) + (b - a)

variable {a b : Nat}

@[simp, grind =] theorem checkedAdd_eq_some :
    checkedAdd a b = some c ↔ a + b < 2 ^ 64 ∧ c = a + b := by
  unfold checkedAdd
  split <;> simp_all [eq_comm]

@[simp, grind =] theorem checkedSub_eq_some : checkedSub a b = some c ↔ b ≤ a ∧ c = a - b := by
  unfold checkedSub
  split <;> simp_all [eq_comm]

@[simp, grind =] theorem checkedMul_eq_some :
    checkedMul a b = some c ↔ a * b < 2 ^ 64 ∧ c = a * b := by
  unfold checkedMul
  split <;> simp_all [eq_comm]

theorem saturatingAdd_of_lt (h : a + b < 2 ^ 64) : saturatingAdd a b = a + b := by
  have hle : a + b ≤ MAX := Nat.le_sub_one_of_lt h
  exact min_eq_left hle

theorem wrappingSub_le (hle : b ≤ a) : wrappingSub a b ≤ a - b := by
  unfold wrappingSub
  omega

theorem saturatingAdd_lt (a b : Nat) : saturatingAdd a b < 2 ^ 64 := by
  simp [saturatingAdd, MAX]

end U64

namespace U128

/-- `u128::MAX`. -/
def MAX : Nat := 2 ^ 128 - 1

/-- `checked_add`. -/
def checkedAdd (a b : Nat) : Option Nat := if a + b < 2 ^ 128 then some (a + b) else none

/-- `checked_mul`. -/
def checkedMul (a b : Nat) : Option Nat := if a * b < 2 ^ 128 then some (a * b) else none

/-- `saturating_mul`. -/
def saturatingMul (a b : Nat) : Nat := min (a * b) MAX

/-- `as u64`: the low half. -/
def toU64 (a : Nat) : Nat := a % 2 ^ 64

/-- `u64::try_from`. -/
def tryToU64 (a : Nat) : Option Nat := if a < 2 ^ 64 then some a else none

@[simp, grind =] theorem checkedAdd_eq_some :
    checkedAdd a b = some c ↔ a + b < 2 ^ 128 ∧ c = a + b := by
  unfold checkedAdd
  split <;> simp_all [eq_comm]

@[simp, grind =] theorem checkedMul_eq_some :
    checkedMul a b = some c ↔ a * b < 2 ^ 128 ∧ c = a * b := by
  unfold checkedMul
  split <;> simp_all [eq_comm]

@[simp, grind =] theorem tryToU64_eq_some : tryToU64 a = some c ↔ a < 2 ^ 64 ∧ c = a := by
  unfold tryToU64
  split <;> simp_all [eq_comm]

/-- A product of two `u64`s fits in a `u128`. -/
theorem mul_lt (ha : a < 2 ^ 64) (hb : b < 2 ^ 64) : a * b < 2 ^ 128 := by
  have h : a * b < 2 ^ 64 * 2 ^ 64 := Nat.mul_lt_mul'' ha hb
  omega

theorem saturatingMul_of_lt (ha : a < 2 ^ 64) (hb : b < 2 ^ 64) : saturatingMul a b = a * b := by
  have h : a * b ≤ MAX := Nat.le_sub_one_of_lt (mul_lt ha hb)
  exact min_eq_left h

theorem toU64_of_lt (h : a < 2 ^ 64) : toU64 a = a := Nat.mod_eq_of_lt h

end U128

/-! ## Fallible steps -/

section
variable {ε α β : Type}

/-- `ok_or_else`. -/
def okOr (o : Option α) (e : ε) : Except ε α :=
  match o with
  | some a => .ok a
  | none => .error e

/-- `if bad { return Err(e) }`. -/
def failIf (bad : Prop) [Decidable bad] (e : ε) : Except ε Unit :=
  if bad then .error e else .ok ()

variable {a : α}

@[simp, grind =] theorem okOr_eq_ok : okOr o e = .ok a ↔ o = some a := by
  cases o <;> simp [okOr]

@[simp, grind =] theorem failIf_eq_ok {bad : Prop} [Decidable bad] :
    failIf bad e = .ok u ↔ ¬ bad := by
  unfold failIf
  split <;> simp_all

/-- An error that a check does not raise comes after it. -/
theorem failIf_bind_eq_error {bad : Prop} [Decidable bad]
    (h : (failIf bad e >>= f) = .error e') (hne : e ≠ e') : ¬ bad ∧ f () = .error e' := by
  unfold failIf at h
  split at h
  · exact absurd (Except.error.inj h) hne
  · next hgood => exact ⟨hgood, h⟩

variable {x : Except ε α} {f : α → Except ε β}

@[grind =] theorem bind_eq_ok : (x >>= f) = .ok b ↔ ∃ a, x = .ok a ∧ f a = .ok b := by
  cases x with
  | error e => simp [bind, Except.bind]
  | ok a => simp [bind, Except.bind]

theorem map_eq_ok : x.map g = .ok b ↔ ∃ a, x = .ok a ∧ g a = b := by
  cases x with
  | error e => simp [Except.map]
  | ok a => simp [Except.map]

theorem toOption_eq_some : x.toOption = some a ↔ x = .ok a := by
  cases x with
  | error e => exact ⟨nofun, nofun⟩
  | ok b => exact ⟨fun h => congrArg Except.ok (Option.some.inj h), fun h => h ▸ rfl⟩

/-- What a computation that succeeds returns, to be evaluated. -/
theorem eq_ok_get (h : x.toOption.isSome = true) : x = .ok (x.toOption.get h) :=
  toOption_eq_some.mp (Option.some_get h).symm

theorem eq_ok_get_pair {x : Except ε (α × β)} (h : x.toOption.isSome = true) :
    x = .ok ((x.toOption.get h).1, (x.toOption.get h).2) :=
  eq_ok_get h

@[grind =] theorem pure_eq_ok : (pure a : Except ε α) = .ok b ↔ a = b := by
  simp [pure, Except.pure]

@[simp] theorem bind_ok : ((.ok a : Except ε α) >>= f) = f a := rfl

theorem exists_unit {P : Unit → Prop} : (∃ u, P u) ↔ P () := ⟨fun ⟨_, h⟩ => h, fun h => ⟨(), h⟩⟩

theorem exists_of_isOk (h : x.isOk = true) : ∃ a, x = .ok a := by
  cases x with
  | error e => exact absurd h (by simp [Except.isOk, Except.toBool])
  | ok a => exact ⟨a, rfl⟩

/-- Sequencing unit steps: all of them succeed. -/
theorem bind_unit_eq_ok {x} {f : Unit → Except ε β} :
    (x >>= f) = .ok b ↔ x = .ok () ∧ f () = .ok b := by
  rw [bind_eq_ok]
  exact ⟨fun ⟨_, h⟩ => h, fun h => ⟨(), h⟩⟩

/-- Relabelling an error. -/
def mapErr {ε' : Type} (f : ε → ε') : Except ε α → Except ε' α
  | .ok a => .ok a
  | .error e => .error (f e)

@[simp, grind =] theorem mapErr_eq_ok {ε' : Type} {f : ε → ε'} :
    mapErr f x = .ok a ↔ x = .ok a := by
  cases x <;> simp [mapErr]

/-- **How a success is read**: the rules for the steps above, as one simp set. -/
theorem ok_rules : (∀ {ε α β : Type} {x : Except ε α} {f : α → Except ε β} {b : β},
      (x >>= f) = .ok b ↔ ∃ a, x = .ok a ∧ f a = .ok b)
    ∧ (∀ {ε α : Type} {a b : α}, (pure a : Except ε α) = .ok b ↔ a = b)
    ∧ (∀ {P : Unit → Prop}, (∃ u, P u) ↔ P ())
    ∧ (∀ {ε : Type} {bad : Prop} [Decidable bad] {e : ε} {u : Unit}, failIf bad e = .ok u ↔ ¬ bad)
    ∧ (∀ {ε α : Type} {o : Option α} {e : ε} {a : α}, okOr o e = .ok a ↔ o = some a)
    ∧ (∀ {a b c : Nat}, U64.checkedAdd a b = some c ↔ a + b < 2 ^ 64 ∧ c = a + b)
    ∧ ∀ {a b c : Nat}, U64.checkedSub a b = some c ↔ b ≤ a ∧ c = a - b :=
  ⟨bind_eq_ok, pure_eq_ok, exists_unit, failIf_eq_ok, okOr_eq_ok, U64.checkedAdd_eq_some,
    U64.checkedSub_eq_some⟩

/-- A loop of checks succeeds when every element passes. -/
def forEach (l : List α) (f : α → Except ε Unit) : Except ε Unit :=
  match l with
  | [] => .ok ()
  | a :: l => f a >>= fun _ => forEach l f

variable {l : List α}

@[simp, grind =] theorem forEach_eq_ok {f : α → Except ε Unit} :
    forEach l f = .ok u ↔ ∀ a ∈ l, f a = .ok () := by
  induction l with
  | nil => simp [forEach]
  | cons a l ih =>
    rw [forEach, bind_unit_eq_ok, ih]
    simp

/-- `try_fold`: a loop that carries a value and may stop. -/
def tryFold (f : β → α → Except ε β) : β → List α → Except ε β
  | b, [] => .ok b
  | b, a :: l => f b a >>= fun b' => tryFold f b' l

variable {f : β → α → Except ε β}

@[simp] theorem tryFold_nil : tryFold f b [] = .ok b := rfl

theorem tryFold_cons_eq_ok :
    tryFold f b (a :: l) = .ok c ↔ ∃ b', f b a = .ok b' ∧ tryFold f b' l = .ok c := by
  rw [tryFold, bind_eq_ok]

theorem tryFold_map {γ : Type} (f : β → α → Except ε β) (g : γ → α) (l : List γ) :
    ∀ b, tryFold f b (l.map g) = tryFold (fun b c => f b (g c)) b l := by
  induction l with
  | nil => exact fun b => rfl
  | cons c l ih =>
    intro b
    rw [map_cons, tryFold, tryFold]
    congr 1
    funext b'
    exact ih b'

/-- What every turn preserves holds at the end. -/
theorem tryFold_induct {P : β → Prop} :
    ∀ {b c : β}, P b → (∀ b a b', a ∈ l → P b → f b a = .ok b' → P b') →
      tryFold f b l = .ok c → P c := by
  induction l with
  | nil =>
    simp
  | cons a l ih =>
    grind [tryFold_cons_eq_ok]

variable {P : β → List α → Prop}

/-- What every turn preserves, with an invariant of the state and the elements to come. -/
theorem tryFold_rest (hstep : ∀ b a l b', P b (a :: l) → f b a = .ok b' → P b' l) :
    ∀ {l : List α} {b c : β}, P b l → tryFold f b l = .ok c → P c [] := by
  intro l
  induction l with
  | nil =>
    simp
  | cons a l ih =>
    grind [tryFold_cons_eq_ok]

/-- A loop whose turns all succeed, with an invariant of the state and the elements to come. -/
theorem tryFold_total (hstep : ∀ b a l, P b (a :: l) → ∃ b', f b a = .ok b' ∧ P b' l) :
    ∀ {l : List α} {b : β}, P b l → ∃ c, tryFold f b l = .ok c ∧ P c [] := by
  intro l
  induction l with
  | nil =>
    intro b hb
    exact ⟨b, rfl, hb⟩
  | cons a l ih =>
    grind [tryFold_cons_eq_ok]

/-- A loop whose turns all check an element and then add its weight: it succeeds exactly when all
    elements pass and the sum fits, and returns the sum. -/
theorem tryFold_sum_eq_ok (check : α → Prop) (w : α → Nat) {f : Nat → α → Except ε Nat}
    (hf : ∀ t a c, f t a = .ok c ↔ check a ∧ t + w a < 2 ^ 64 ∧ c = t + w a) :
    ∀ {t c : Nat}, t < 2 ^ 64 → (tryFold f t l = .ok c ↔
      (∀ a ∈ l, check a) ∧ t + (l.map w).sum < 2 ^ 64 ∧ c = t + (l.map w).sum) := by
  induction l with
  | nil =>
    grind [tryFold_nil]
  | cons a l ih =>
    intro t c _
    rw [tryFold_cons_eq_ok]
    simp only [map_cons, sum_cons, mem_cons, forall_eq_or_imp]
    constructor
    · grind
    · rintro ⟨⟨hca, hcl⟩, hlt, rfl⟩
      have hlt' : t + w a < 2 ^ 64 := by omega
      refine ⟨t + w a, (hf t a _).mpr ⟨hca, hlt', rfl⟩, (ih hlt').mpr ⟨hcl, by omega, by omega⟩⟩

/-- A loop that only adds weights up. -/
theorem tryFold_add_eq_ok (ht : t < 2 ^ 64) :
    tryFold (fun t a => okOr (U64.checkedAdd t (w a)) e) t l = .ok c ↔
      t + (l.map w).sum < 2 ^ 64 ∧ c = t + (l.map w).sum := by
  rw [tryFold_sum_eq_ok (fun _ => True) w (fun t a c => ?_) ht]
  · simp
  · rw [okOr_eq_ok, U64.checkedAdd_eq_some, true_and]

/-- The same for a loop that also collects what it makes of the elements. -/
theorem tryFold_collect_eq_ok {γ : Type} (check : α → Prop) (w : α → Nat) (g : α → γ)
    {f : List γ × Nat → α → Except ε (List γ × Nat)} :
    ∀ {acc r : List γ × Nat}, (∀ acc a r, a ∈ l → (f acc a = .ok r ↔
      check a ∧ acc.2 + w a < 2 ^ 64 ∧ r = (acc.1 ++ [g a], acc.2 + w a))) → acc.2 < 2 ^ 64 →
      (tryFold f acc l = .ok r ↔ (∀ a ∈ l, check a) ∧ acc.2 + (l.map w).sum < 2 ^ 64
        ∧ r = (acc.1 ++ l.map g, acc.2 + (l.map w).sum)) := by
  induction l with
  | nil =>
    grind [tryFold_nil]
  | cons a l ih =>
    intro acc r hf _
    have hrest : ∀ acc b r, b ∈ l → _ := fun acc b r hb => hf acc b r (mem_cons_of_mem a hb)
    rw [tryFold_cons_eq_ok]
    simp only [map_cons, sum_cons, mem_cons, forall_eq_or_imp]
    constructor
    · grind
    · rintro ⟨⟨hca, hcl⟩, hlt, rfl⟩
      have hlt' : acc.2 + w a < 2 ^ 64 := by omega
      refine ⟨_, (hf acc a _ mem_cons_self).mpr ⟨hca, hlt', rfl⟩,
        (ih hrest hlt').mpr ⟨hcl, by simp only; omega, ?_⟩⟩
      rw [append_assoc, add_assoc]
      rfl

end
end Base
