/-
  Weighted medians.

  Sort weighted times, and take the first at which more than half of the weight is reached.  Half of
  the weight lies at or after it, and more than half at or before it; so a minority of the weight,
  wherever its times are, cannot move the median outside the range of the others' times.
-/
import Mathlib.Algebra.Order.BigOperators.Group.List
import Mathlib.Algebra.Order.Ring.Nat
import Mathlib.Data.List.Sort

namespace Base
open List
variable {τ : Type}

def totalWeight (l : List (τ × Nat)) : Nat := (l.map Prod.snd).sum

/-- The first time at which the weight, `acc` included, exceeds `half`. -/
def crossing (half : Nat) : Nat → List (τ × Nat) → Option τ
  | _, [] => none
  | acc, p :: l => if half < acc + p.2 then some p.1 else crossing half (acc + p.2) l

/-- The weighted median in the order `r`; of weightless times, the first. -/
def weightedMedian (r : τ → τ → Prop) [DecidableRel r] (l : List (τ × Nat)) : Option τ :=
  let sorted := l.insertionSort fun p q => r p.1 q.1
  match sorted with
  | [] => none
  | first :: _ => some ((crossing (totalWeight sorted / 2) 0 sorted).getD first.1)

@[simp] theorem totalWeight_nil : totalWeight ([] : List (τ × Nat)) = 0 := rfl

@[simp] theorem totalWeight_cons (p : τ × Nat) (l : List (τ × Nat)) :
    totalWeight (p :: l) = p.2 + totalWeight l := by
  simp [totalWeight]

@[simp] theorem totalWeight_append (l l' : List (τ × Nat)) :
    totalWeight (l ++ l') = totalWeight l + totalWeight l' := by
  simp [totalWeight]

/-- If there is enough weight, it crosses somewhere: not before, and there. -/
theorem crossing_spec (half : Nat) : ∀ (l : List (τ × Nat)) (acc : Nat), acc ≤ half →
    half < acc + totalWeight l → ∃ l₁ m w l₂, crossing half acc l = some m ∧ l = l₁ ++ (m, w) :: l₂
      ∧ acc + totalWeight l₁ ≤ half ∧ half < acc + totalWeight l₁ + w := by
  intro l
  induction l with
  | nil =>
    intro acc hle hlt
    rw [totalWeight_nil] at hlt
    omega
  | cons p l ih =>
    intro acc _ hlt
    rw [crossing]
    split
    · refine ⟨[], p.1, p.2, l, rfl, rfl, ?_, ?_⟩
      · rw [totalWeight_nil]; omega
      · rw [totalWeight_nil]; omega
    · rw [totalWeight_cons] at hlt
      obtain ⟨l₁, m, w, l₂, hm, rfl, hbefore, hat⟩ := ih (acc + p.2) (by omega) (by omega)
      refine ⟨p :: l₁, m, w, l₂, hm, rfl, ?_, ?_⟩
      · rw [totalWeight_cons]; omega
      · rw [totalWeight_cons]; omega

variable {l : List (τ × Nat)}

/-- There is a median unless there is nothing. -/
theorem exists_weightedMedian (r : τ → τ → Prop) [DecidableRel r]
    (hne : l ≠ []) : ∃ m, weightedMedian r l = some m := by
  unfold weightedMedian
  dsimp only
  split
  · rename_i hnil
    have hperm := l.perm_insertionSort fun p q => r p.1 q.1
    rw [hnil] at hperm
    exact absurd hperm.nil_eq.symm hne
  · exact ⟨_, rfl⟩

/-- The weight of the times with property `p`. -/
def weightWhere (p : τ → Prop) [DecidablePred p] (l : List (τ × Nat)) : Nat :=
  totalWeight (l.filter fun q => decide (p q.1))

theorem weightWhere_perm (p : τ → Prop) [DecidablePred p]
    (h : l.Perm l') : weightWhere p l = weightWhere p l' :=
  ((h.filter _).map _).sum_nat

theorem totalWeight_le_weightWhere (p : τ → Prop) [DecidablePred p]
    (hsub : l₁.Sublist l) (hp : ∀ q ∈ l₁, p q.1) : totalWeight l₁ ≤ weightWhere p l := by
  have hkeep : l₁.filter (fun q => decide (p q.1)) = l₁ := by
    rw [filter_eq_self]
    intro q hq
    exact decide_eq_true (hp q hq)
  have hle := ((hsub.filter fun q => decide (p q.1)).map Prod.snd).sum_le_sum fun _ _ => Nat.zero_le _
  rw [hkeep] at hle
  exact hle

section
variable {r : τ → τ → Prop} [DecidableRel r] [Std.Total r] [IsTrans τ r]

/-- **The median splits the weight**: half of it is at or after the median, and more than half at or
    before. -/
theorem weightedMedian_splits (hm : weightedMedian r l = some m) (hpos : 0 < totalWeight l) :
    totalWeight l ≤ 2 * weightWhere (fun t => r m t) l
      ∧ totalWeight l < 2 * weightWhere (fun t => r t m) l := by
  have hperm := l.perm_insertionSort fun p q => r p.1 q.1
  have hsorted := pairwise_insertionSort (fun p q : τ × Nat => r p.1 q.1) l
  unfold weightedMedian at hm
  rw [← weightWhere_perm _ hperm, ← weightWhere_perm _ hperm]
  have hsum : totalWeight (l.insertionSort fun p q => r p.1 q.1) = totalWeight l :=
    (hperm.map _).sum_nat
  rw [← hsum] at hpos ⊢
  generalize (l.insertionSort fun p q => r p.1 q.1) = sorted at hm hsorted hpos ⊢
  obtain ⟨l₁, m', w, l₂, hcross, rfl, hbefore, hat⟩ :=
    crossing_spec (totalWeight sorted / 2) sorted 0 (Nat.zero_le _) (by omega)
  have heq : m' = m := by
    dsimp only at hm
    split at hm
    · rename_i hnil
      simp at hnil
    · rw [hcross] at hm
      exact Option.some.inj hm
  subst heq
  have hrefl : r m' m' := (Std.Total.total (r := r) m' m').elim id id
  obtain ⟨-, hhigh, hacross⟩ := pairwise_append.mp hsorted
  have hafter : totalWeight ((m', w) :: l₂) ≤ weightWhere (fun t => r m' t) (l₁ ++ (m', w) :: l₂) := by
    apply totalWeight_le_weightWhere _ (sublist_append_right _ _)
    intro q hq
    rcases mem_cons.mp hq with rfl | hq
    · exact hrefl
    · exact (pairwise_cons.mp hhigh).1 q hq
  have hupto : totalWeight (l₁ ++ [(m', w)]) ≤ weightWhere (fun t => r t m') (l₁ ++ (m', w) :: l₂) := by
    apply totalWeight_le_weightWhere
    · exact (List.Sublist.refl l₁).append (singleton_sublist.mpr mem_cons_self)
    · intro q hq
      rcases mem_append.mp hq with hq | hq
      · exact hacross q hq (m', w) mem_cons_self
      · rw [mem_singleton.mp hq]
        exact hrefl
  grind [totalWeight_append, totalWeight_cons]

section
variable {ι : Type} (time : ι → τ) (w : ι → Nat) (bad : ι → Bool) {L : List ι}
  (hminor : ((L.filter bad).map w).sum * 2 < (L.map w).sum)
include hminor

/-- A time on the heavy side of the median that is not among the bad ones. -/
theorem exists_good_where (p : τ → Prop) [DecidablePred p]
    (hheavy : (L.map w).sum ≤ 2 * weightWhere p (L.map fun i => (time i, w i))) :
    ∃ i ∈ L, bad i = false ∧ p (time i) := by
  by_contra hnone
  -- otherwise everything on that side is bad, which is too little
  have hside : weightWhere p (L.map fun i => (time i, w i))
      = ((L.filter fun i => decide (p (time i))).map w).sum := by
    unfold weightWhere totalWeight
    rw [filter_map, map_map]
    rfl
  have hsub : (L.filter fun i => decide (p (time i))).Sublist (L.filter bad) := by
    have hboth : L.filter (fun i => decide (p (time i)))
        = (L.filter bad).filter fun i => decide (p (time i)) := by
      rw [filter_filter]
      apply filter_congr
      intro i _
      by_cases hp : p (time i)
      · grind
      · rw [decide_eq_false hp, Bool.false_and]
    rw [hboth]
    exact filter_sublist
  have hle := (hsub.map w).sum_le_sum fun _ _ => Nat.zero_le _
  omega

/-- **A minority cannot move the median**: there are good times at or after it, and at or before. -/
theorem weightedMedian_between (hm : weightedMedian r (L.map fun i => (time i, w i)) = some m) :
    (∃ i ∈ L, bad i = false ∧ r m (time i)) ∧ ∃ i ∈ L, bad i = false ∧ r (time i) m := by
  have htotal : totalWeight (L.map fun i => (time i, w i)) = (L.map w).sum := by
    unfold totalWeight
    rw [map_map]
    rfl
  obtain ⟨hafter, hupto⟩ := weightedMedian_splits hm (by omega)
  rw [htotal] at hafter hupto
  exact ⟨exists_good_where time w bad hminor _ hafter,
    exists_good_where time w bad hminor _ (le_of_lt hupto)⟩

end
end
end Base
