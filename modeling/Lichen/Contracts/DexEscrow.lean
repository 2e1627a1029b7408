/-
  The escrow of a buy order (`contracts/dex_core/src/lib.rs`).

  A limit buy locks its notional at the limit price, the proportional taker fee on that and one unit
  for each lot.  It is filled in pieces, each of which rounds on its own: its notional down, and its
  fee down but not below one unit.  What is locked always covers what is still to be filled
  (`Funded`), so that no piece fails for lack of escrow.
-/
import Lichen.Base.Machine

open Base
namespace Lichen.DexCore

def MIN_FEE_PER_TRADE : Nat := 1

/-- What settlement reads of a pair. -/
structure Pair where
  lotSize : Nat
  takerFeeBps : Nat

def calculateTakerFee (notional feeBps : Nat) : Nat :=
  let fee := notional * feeBps / 10000 % 2 ^ 64
  if fee < MIN_FEE_PER_TRADE then MIN_FEE_PER_TRADE else fee

def checkedNotional (price quantity : Nat) : Option Nat :=
  U128.tryToU64 (price * quantity / 1000000000)

/-- `calculate_buy_escrow`, what `place_order` locks for a buy. -/
def calculateBuyEscrow (price quantity takerFeeBps lotSize : Nat) : Option Nat :=
  if lotSize = 0 ∨ quantity % lotSize ≠ 0 then none
  else do
    let notional ← checkedNotional price quantity
    let proportionalFee ← U128.tryToU64 (notional * takerFeeBps / 10000)
    let maxFillCount := quantity / lotSize
    let withFee ← U64.checkedAdd notional proportionalFee
    U64.checkedAdd withFee maxFillCount

structure BuyOrder where
  price : Nat
  quantity : Nat
  filled : Nat
  escrowLocked : Nat

/-- One trade of the order, at the price of the level it happens on. -/
structure Fill where
  price : Nat
  quantity : Nat
  buyerIsTaker : Bool

/-- `buyer_escrow_used` of `fill_at_price_level`. -/
def buyerEscrowUsed (pair : Pair) (notional : Nat) (buyerIsTaker : Bool) : Nat :=
  if buyerIsTaker then U64.saturatingAdd notional (calculateTakerFee notional pair.takerFeeBps)
  else notional

/-- The buyer's side of the settlement in `fill_at_price_level`. -/
def fill (pair : Pair) (order : BuyOrder) (f : Fill) : Option BuyOrder := do
  let notional ← checkedNotional f.price f.quantity
  let escrow ← U64.checkedSub order.escrowLocked (buyerEscrowUsed pair notional f.buyerIsTaker)
  some { order with filled := order.filled + f.quantity, escrowLocked := escrow }

/-- `refund_order_escrow`: what is released to the trader, and the order without it. -/
def refundOrderEscrow (order : BuyOrder) : Nat × BuyOrder :=
  (order.escrowLocked, { order with escrowLocked := 0 })

/-! ## What the rest of an order can cost -/

/-- The notional of an amount, before it is checked. -/
def worth (price quantity : Nat) : Nat := price * quantity / 1000000000

/-- What a trade takes out of the escrow. -/
def Fill.used (pair : Pair) (f : Fill) : Nat :=
  buyerEscrowUsed pair (worth f.price f.quantity) f.buyerIsTaker

/-- The most that filling `quantity` at `price` or below can take. -/
def reserve (pair : Pair) (price quantity : Nat) : Nat :=
  worth price quantity + worth price quantity * pair.takerFeeBps / 10000 + quantity / pair.lotSize

/-- A trade of whole lots within the limit price. -/
def Fill.Allowed (pair : Pair) (price : Nat) (f : Fill) : Prop :=
  f.price ≤ price ∧ 0 < f.quantity ∧ pair.lotSize ∣ f.quantity

instance (pair : Pair) (price : Nat) (f : Fill) : Decidable (f.Allowed pair price) :=
  inferInstanceAs (Decidable (_ ∧ _ ∧ _))

/-- The escrow covers what is left to fill. -/
structure Funded (pair : Pair) (order : BuyOrder) : Prop where
  lot_pos : 0 < pair.lotSize
  fits : order.escrowLocked < 2 ^ 64
  covers : reserve pair order.price (order.quantity - order.filled) ≤ order.escrowLocked

variable {pair : Pair} {order : BuyOrder} {f : Fill}

theorem funded_of_calculateBuyEscrow
    (h : calculateBuyEscrow price quantity pair.takerFeeBps pair.lotSize = some escrow) :
    Funded pair ⟨price, quantity, 0, escrow⟩ := by
  unfold calculateBuyEscrow at h
  split at h
  · cases h
  · unfold checkedNotional at h
    simp only [Option.bind_eq_bind, Option.bind_eq_some_iff, U128.tryToU64_eq_some,
      U64.checkedAdd_eq_some] at h
    obtain ⟨_, ⟨-, rfl⟩, _, ⟨-, rfl⟩, _, ⟨-, rfl⟩, hfit, rfl⟩ := h
    exact ⟨by omega, hfit, Nat.le_refl _⟩

/-- A fee is the proportional one or one unit. -/
theorem Fill.used_le (pair : Pair) (f : Fill) : f.used pair ≤ worth f.price f.quantity
    + worth f.price f.quantity * pair.takerFeeBps / 10000 + 1 := by
  unfold used buyerEscrowUsed calculateTakerFee MIN_FEE_PER_TRADE U64.saturatingAdd
  dsimp only
  split
  · split
    · omega
    · omega
  · omega

theorem worth_add_le (left : Nat) (hle : f.price ≤ price) :
    worth f.price f.quantity + worth price left ≤ worth price (f.quantity + left) := by
  unfold worth
  rw [Nat.mul_add]
  refine le_trans Nat.div_add_div_le_add_div (Nat.div_le_div_right ?_)
  exact Nat.add_le_add_right (Nat.mul_le_mul_right _ hle) _

/-- **One trade and the rest** cost no more than both at once at the limit price. -/
theorem used_add_reserve_le (left : Nat) (hlot : 0 < pair.lotSize) (hf : f.Allowed pair price) :
    f.used pair + reserve pair price left ≤ reserve pair price (f.quantity + left) := by
  obtain ⟨hprice, hpos, hlots⟩ := hf
  have hworth := worth_add_le left hprice
  have hfee : worth f.price f.quantity * pair.takerFeeBps / 10000
      + worth price left * pair.takerFeeBps / 10000
      ≤ worth price (f.quantity + left) * pair.takerFeeBps / 10000 := by
    refine le_trans Nat.div_add_div_le_add_div (Nat.div_le_div_right ?_)
    rw [← Nat.add_mul]
    exact Nat.mul_le_mul_right _ hworth
  -- the trade takes at least one of the lots
  have hcount : 1 + left / pair.lotSize ≤ (f.quantity + left) / pair.lotSize := by
    have hone : 1 ≤ f.quantity / pair.lotSize := Nat.div_pos (Nat.le_of_dvd hpos hlots) hlot
    exact le_trans (Nat.add_le_add_right hone _) Nat.div_add_div_le_add_div
  have hused := f.used_le pair
  unfold reserve
  omega

/-- **One trade** goes through and leaves the rest of the order funded. -/
theorem Funded.fill (h : Funded pair order) (hf : f.Allowed pair order.price)
    (hleft : order.filled + f.quantity ≤ order.quantity) :
    ∃ escrow, escrow + f.used pair = order.escrowLocked
      ∧ fill pair order f
        = some { order with filled := order.filled + f.quantity, escrowLocked := escrow }
      ∧ Funded pair { order with filled := order.filled + f.quantity, escrowLocked := escrow } := by
  obtain ⟨hlot, hfits, hcovers⟩ := h
  have hworth := worth_add_le (order.quantity - (order.filled + f.quantity)) hf.1
  have hrest := used_add_reserve_le (order.quantity - (order.filled + f.quantity)) hlot hf
  have hsum : f.quantity + (order.quantity - (order.filled + f.quantity))
      = order.quantity - order.filled := by omega
  rw [hsum] at hworth hrest
  have hle : f.used pair ≤ order.escrowLocked := by omega
  have hpart : worth order.price (order.quantity - order.filled)
      ≤ reserve pair order.price (order.quantity - order.filled) :=
    le_trans (Nat.le_add_right _ _) (Nat.le_add_right _ _)
  have hnotional : worth f.price f.quantity < 2 ^ 64 := by omega
  refine ⟨order.escrowLocked - f.used pair, by omega, ?_, hlot, by dsimp only; omega,
    by dsimp only; omega⟩
  unfold DexCore.fill checkedNotional
  simp only [Option.bind_eq_bind, Option.bind_eq_some_iff, U128.tryToU64_eq_some,
    U64.checkedSub_eq_some]
  exact ⟨_, ⟨hnotional, rfl⟩, _, ⟨hle, rfl⟩, rfl⟩

/-- **Any number of trades** that the order has room for go through. -/
theorem Funded.fills {fills : List Fill} (h : Funded pair order)
    (hfills : ∀ f ∈ fills, f.Allowed pair order.price)
    (hroom : order.filled + (fills.map Fill.quantity).sum ≤ order.quantity) :
    ∃ last, fills.foldlM (DexCore.fill pair) order = some last
      ∧ last.filled = order.filled + (fills.map Fill.quantity).sum
      ∧ (fills.map (Fill.used pair)).sum + (refundOrderEscrow last).1 = order.escrowLocked := by
  induction fills generalizing order with
  | nil => exact ⟨order, rfl, rfl, Nat.zero_add _⟩
  | cons f fills ih =>
    rw [List.map_cons, List.sum_cons] at hroom
    obtain ⟨escrow, hused, hfill, hnext⟩ := h.fill (hfills f List.mem_cons_self) (by omega)
    obtain ⟨last, hrun, hfilled, hescrow⟩ := ih hnext
      (fun g hg => hfills g (List.mem_cons_of_mem f hg)) (by dsimp only; omega)
    refine ⟨last, ?_, ?_, ?_⟩
    · rw [List.foldlM_cons, hfill]
      exact hrun
    · rw [hfilled, List.map_cons, List.sum_cons, Nat.add_assoc]
    · rw [List.map_cons, List.sum_cons]
      dsimp only at hescrow
      omega

/-- **The escrow of a limit buy suffices** for every way of filling it, as maker or taker, and what
    it does not take comes back. -/
theorem buy_escrow_suffices (pair : Pair) (price quantity escrow : Nat) (fills : List Fill)
    (hplaced : calculateBuyEscrow price quantity pair.takerFeeBps pair.lotSize = some escrow)
    (hfills : ∀ f ∈ fills, f.Allowed pair price)
    (hroom : (fills.map Fill.quantity).sum ≤ quantity) :
    ∃ order, fills.foldlM (fill pair) ⟨price, quantity, 0, escrow⟩ = some order
      ∧ order.filled = (fills.map Fill.quantity).sum
      ∧ (fills.map (Fill.used pair)).sum + (refundOrderEscrow order).1 = escrow := by
  obtain ⟨order, hrun, hfilled, hescrow⟩ := (funded_of_calculateBuyEscrow hplaced).fills hfills
    ((Nat.zero_add _).trans_le hroom)
  exact ⟨order, hrun, hfilled.trans (Nat.zero_add _), hescrow⟩

/-- Ten lots at two quote units each and a fee of 1%: one as taker, one as maker and eight at once
    below the limit. -/
theorem buy_escrow_suffices_lots :
    let fills : List Fill := [⟨2000000000, 10, true⟩, ⟨2000000000, 10, false⟩, ⟨1500000000, 80, true⟩]
    ∃ order, fills.foldlM (fill ⟨10, 100⟩) ⟨2000000000, 100, 0, 212⟩ = some order
      ∧ order.filled = 100
      ∧ (fills.map (Fill.used ⟨10, 100⟩)).sum + (refundOrderEscrow order).1 = 212 :=
  buy_escrow_suffices ⟨10, 100⟩ 2000000000 100 212 _ (by decide) (by decide) (by decide)

end Lichen.DexCore
