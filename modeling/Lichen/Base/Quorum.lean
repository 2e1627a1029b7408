/-
  Weighted quorums.

  A finite universe of members carries weights; the bad ones together weigh less than a third of
  the total.  A quorum is a list of distinct members that weighs at least two thirds.  Two quorums
  then share a good member, and a list that weighs more than a third has one: what every Byzantine
  agreement argument takes from arithmetic.
-/
import Mathlib.Algebra.Order.BigOperators.Group.Finset
import Mathlib.Tactic.Linarith

namespace Base
open List
variable {α : Type} [DecidableEq α]

/-- The weight of a list of members. -/
def weight (w : α → Nat) (l : List α) : Nat := (l.map w).sum

/-- Distinct members weigh no more than a list that has them all. -/
theorem weight_le_of_subset {β : Type} (w : β → Nat) {l l'} (hl : l.Nodup) (hsub : l ⊆ l') :
    weight w l ≤ weight w l' := by
  obtain ⟨l₁, hperm, hsublist⟩ := subperm_of_subset hl hsub
  calc weight w l = weight w l₁ := ((hperm.map w).sum_eq).symm
    _ ≤ weight w l' := (hsublist.map w).sum_le_sum fun _ _ => Nat.zero_le _

/-- Members `univ` with weights, of which the `bad` ones weigh less than a third. -/
structure Weighted (α : Type) [DecidableEq α] where
  univ : List α
  nodup : univ.Nodup
  w : α → Nat
  outside : ∀ a, a ∉ univ → w a = 0
  bad : α → Bool
  few_bad : weight w (univ.filter bad) * 3 < weight w univ

namespace Weighted

variable (W : Weighted α)

/-- The total weight. -/
def total : Nat := weight W.w W.univ

/-- Distinct members with at least two thirds of the weight. -/
def IsQuorum (l : List α) : Prop := l.Nodup ∧ W.total * 2 ≤ weight W.w l * 3

theorem weight_eq_sum (hl : l.Nodup) : weight W.w l = ∑ a ∈ l.toFinset, W.w a :=
  (sum_toFinset W.w hl).symm

/-- Members outside the universe weigh nothing. -/
theorem sum_inter_univ (s : Finset α) : ∑ a ∈ s, W.w a = ∑ a ∈ s ∩ W.univ.toFinset, W.w a := by
  refine (Finset.sum_subset Finset.inter_subset_left ?_).symm
  simp_all [outside]

/-- Distinct members never weigh more than everybody. -/
theorem sum_le_total (s : Finset α) : ∑ a ∈ s, W.w a ≤ W.total := by
  show _ ≤ weight W.w W.univ
  rw [W.weight_eq_sum W.nodup, W.sum_inter_univ s]
  exact Finset.sum_le_sum_of_subset Finset.inter_subset_right

/-- A set of bad members weighs less than a third. -/
theorem sum_bad_lt (hs : ∀ a ∈ s, W.bad a = true) : (∑ a ∈ s, W.w a) * 3 < W.total := by
  have hle : ∑ a ∈ s, W.w a ≤ weight W.w (W.univ.filter W.bad) := by
    rw [W.weight_eq_sum (W.nodup.filter _), W.sum_inter_univ s]
    apply Finset.sum_le_sum_of_subset
    intro a ha
    obtain ⟨hs', hu⟩ := Finset.mem_inter.mp ha
    rw [mem_toFinset, mem_filter]
    exact ⟨mem_toFinset.mp hu, hs a hs'⟩
  have hfew := W.few_bad
  have htotal : W.total = weight W.w W.univ := rfl
  omega

/-- **More than a third contains a good member.** -/
theorem exists_good (hl : l.Nodup) (hthird : W.total < weight W.w l * 3) :
    ∃ a ∈ l, W.bad a = false := by
  by_contra hnone
  have hbad : ∀ a ∈ l.toFinset, W.bad a = true := by
    intro a ha
    by_contra hgood
    exact hnone ⟨a, mem_toFinset.mp ha, Bool.eq_false_iff.mpr hgood⟩
  have hlt := W.sum_bad_lt hbad
  rw [← W.weight_eq_sum hl] at hlt
  omega

variable {W : Weighted α}

/-- **Quorum intersection.** Two quorums share a good member. -/
theorem IsQuorum.exists_common (h₁ : W.IsQuorum l₁)
    (h₂ : W.IsQuorum l₂) : ∃ a, a ∈ l₁ ∧ a ∈ l₂ ∧ W.bad a = false := by
  by_contra hnone
  have hbad : ∀ a ∈ l₁.toFinset ∩ l₂.toFinset, W.bad a = true := by
    intro a ha
    obtain ⟨ha₁, ha₂⟩ := Finset.mem_inter.mp ha
    by_contra hgood
    exact hnone ⟨a, mem_toFinset.mp ha₁, mem_toFinset.mp ha₂, Bool.eq_false_iff.mpr hgood⟩
  -- together they weigh 4/3 of the total, so 1/3 of it is counted twice
  have hinter := W.sum_bad_lt hbad
  have hunion := W.sum_le_total (l₁.toFinset ∪ l₂.toFinset)
  have hsum : _ = ∑ a ∈ l₁.toFinset, W.w a + ∑ a ∈ l₂.toFinset, W.w a := Finset.sum_union_inter
  rw [← W.weight_eq_sum h₁.1, ← W.weight_eq_sum h₂.1] at hsum
  have hq₁ := h₁.2
  have hq₂ := h₂.2
  omega

/-- A quorum has a good member. -/
theorem IsQuorum.exists_good (h : W.IsQuorum l) : ∃ a ∈ l, W.bad a = false := by
  obtain ⟨a, ha, -, hgood⟩ := h.exists_common h
  exact ⟨a, ha, hgood⟩

/-- The bad members of a quorum weigh less than half of it. -/
theorem IsQuorum.bad_minority (h : W.IsQuorum l) :
    weight W.w (l.filter W.bad) * 2 < weight W.w l := by
  have hbad : ∀ a ∈ (l.filter W.bad).toFinset, W.bad a = true := by
    intro a ha
    exact (mem_filter.mp (mem_toFinset.mp ha)).2
  have hlt := W.sum_bad_lt hbad
  rw [← W.weight_eq_sum (h.1.filter _)] at hlt
  have hquorum := h.2
  omega

end Weighted
end Base
