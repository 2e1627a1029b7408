/-
  Accounts (`core/src/account.rs`): one balance in three parts.

  `spores` is the total; `spendable`, `staked` and `locked` say what it is for.  The moves between
  the parts leave the total alone and refuse an account whose parts do not add up to it;
  `addSpendable` and `deductSpendable` change the total and the spendable part together.  An account
  is `Balanced` when the parts add up, and no operation ends that.
-/
import Lichen.Base.MapSum
import Lichen.Base.Machine
import Lichen.Core.Types

open Base
namespace Lichen.Processor

structure Account where
  spores : Nat
  spendable : Nat
  staked : Nat
  locked : Nat
  data : List UInt8
  owner : Pubkey
  executable : Bool
  rentEpoch : Nat
  dormant : Bool
  missedRentEpochs : Nat
  deriving DecidableEq, Repr

namespace Account

/-- `licn_to_spores`. -/
def licnToSpores (licn : Nat) : Nat := U64.saturatingMul licn 1000000000

/-- `Account::new`: everything is spendable. -/
def new (licn : Nat) (owner : Pubkey) : Account where
  spores := licnToSpores licn
  spendable := licnToSpores licn
  staked := 0
  locked := 0
  data := []
  owner
  executable := false
  rentEpoch := 0
  dormant := false
  missedRentEpochs := 0

/-! ## Moves between the parts -/

/-- The parts of a balance. -/
inductive Part where
  | spendable
  | staked
  | locked
  deriving DecidableEq, Repr

instance : ToString Part :=
  ⟨fun
    | .spendable => "spendable"
    | .staked => "staked"
    | .locked => "locked"⟩

section
variable (a : Account)

def part : Part → Nat
  | .spendable => a.spendable
  | .staked => a.staked
  | .locked => a.locked

def setPart (n : Nat) : Part → Account
  | .spendable => { a with spendable := n }
  | .staked => { a with staked := n }
  | .locked => { a with locked := n }

/-- `self.spendable + self.staked + self.locked` in 64 bits. -/
def classified : Nat :=
  U64.wrappingAdd (U64.wrappingAdd a.spendable a.staked) a.locked

/-- The common body of the four moves. -/
def move (source target : Part) (name : String) (amount : Nat) :
    Except String Account :=
  if amount = 0 then .ok a
  else do
    let less ← okOr (U64.checkedSub (a.part source) amount)
      s!"Insufficient {source} balance: {a.part source} < {amount}"
    let more ← okOr (U64.checkedAdd (a.part target) amount)
      s!"Overflow adding {amount} to {target} balance {a.part target}"
    let a := (a.setPart less source).setPart more target
    failIf (a.spores ≠ a.classified) s!"Account invariant violated after {name}"
    pure a

def lock (a : Account) (amount : Nat) : Except String Account :=
  a.move .spendable .locked "lock" amount

def unlock (a : Account) (amount : Nat) : Except String Account :=
  a.move .locked .spendable "unlock" amount

/-! ## Changes of the total -/

def addSpendable (amount : Nat) : Except String Account := do
  let spores ← okOr (U64.checkedAdd a.spores amount)
    s!"Overflow adding {amount} to spores balance {a.spores}"
  let spendable ← okOr (U64.checkedAdd a.spendable amount)
    s!"Overflow adding {amount} to spendable balance {a.spendable}"
  pure { a with spores, spendable }

def deductSpendable (amount : Nat) : Except String Account := do
  let spendable ← okOr (U64.checkedSub a.spendable amount)
    s!"Insufficient spendable balance: {a.spendable} < {amount}"
  let spores ← okOr (U64.checkedSub a.spores amount)
    s!"Underflow subtracting {amount} from spores balance {a.spores}"
  pure { a with spores, spendable }

def deductLocked (amount : Nat) : Except String Account := do
  let locked ← okOr (U64.checkedSub a.locked amount)
    s!"Insufficient locked balance: {a.locked} < {amount}"
  let spores ← okOr (U64.checkedSub a.spores amount)
    s!"Underflow subtracting {amount} from spores balance {a.spores}"
  let a := { a with locked, spores }
  failIf (a.spores ≠ a.classified) "Account invariant violated after locked deduction"
  pure a

/-! ## Balanced accounts -/

/-- The parts add up to the total. -/
def Balanced : Prop := a.spores = a.spendable + a.staked + a.locked

end

instance (a : Account) : Decidable a.Balanced := inferInstanceAs (Decidable (_ = _))

theorem balanced_of_spendable {a : Account} (h : a.spores = a.spendable) (hs : a.staked = 0)
    (hl : a.locked = 0) : a.Balanced := by
  unfold Balanced
  omega

theorem balanced_new (licn : Nat) (owner : Pubkey) : (new licn owner).Balanced :=
  balanced_of_spendable rfl rfl rfl

variable {a : Account}

/-- **Moving** `amount` takes it out of one part and into the other. -/
theorem move_eq_ok (hne : source ≠ target) (h : a.move source target name amount = .ok a') :
    amount ≤ a.part source ∧ a'.spores = a.spores
      ∧ (∀ q, a'.part q = if q = source then a.part source - amount
          else if q = target then a.part target + amount else a.part q)
      ∧ (0 < amount → a.part target + amount < 2 ^ 64) := by
  unfold move at h
  by_cases hz : amount = 0
  · rw [if_pos hz, Except.ok.injEq] at h
    subst h hz
    refine ⟨Nat.zero_le _, rfl, fun q => ?_, fun hlt => absurd hlt (lt_irrefl 0)⟩
    split
    · rename_i hq
      rw [hq, Nat.sub_zero]
    · split
      · rename_i hq
        rw [hq, add_zero]
      · rfl
  · rw [if_neg hz] at h
    simp only [ok_rules] at h
    obtain ⟨less, ⟨hle, rfl⟩, more, ⟨hlt, rfl⟩, -, rfl⟩ := h
    refine ⟨hle, ?_, fun q => ?_, fun _ => hlt⟩
    · cases source <;> cases target <;> rfl
    · cases source <;> cases target <;> cases q <;> first | rfl | exact absurd rfl hne

theorem addSpendable_eq_ok :
    a.addSpendable amount = .ok a' ↔ a.spores + amount < 2 ^ 64 ∧ a.spendable + amount < 2 ^ 64
      ∧ a' = { a with spores := a.spores + amount, spendable := a.spendable + amount } := by
  unfold addSpendable
  grind [okOr, U64.checkedAdd]

theorem deductSpendable_eq_ok :
    a.deductSpendable amount = .ok a' ↔ amount ≤ a.spendable ∧ amount ≤ a.spores
      ∧ a' = { a with spores := a.spores - amount, spendable := a.spendable - amount } := by
  unfold deductSpendable
  grind [okOr, U64.checkedSub]

end Account
end Lichen.Processor
