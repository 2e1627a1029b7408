/-
  Priority queues as `BinaryHeap` documents them.

  A heap holds a collection of elements in an order of its own (`toVec`).  Pushing adds one, popping
  takes one that no other exceeds, draining gives them all, collecting builds a heap of a list; ties
  are broken as the heap likes.  A `BinaryHeap` is any type with these operations and laws, and
  `BinaryHeap.sortedVec` is one.

  `popUpTo` is the loop that pops a bounded number of elements; pushing them back restores the
  contents (`toVec_pushAll_popUpTo`).
-/
import Mathlib.Data.List.Sort

namespace Base

/-- A heap of `α` in which `le` decides who is popped first. -/
structure BinaryHeap (α : Type) (le : α → α → Prop) where
  Heap : Type
  toVec : Heap → List α
  new : Heap
  push : Heap → α → Heap
  pop : Heap → Option (α × Heap)
  ofVec : List α → Heap
  toVec_new : toVec new = []
  toVec_push : ∀ h a, (toVec (push h a)).Perm (a :: toVec h)
  toVec_pop : ∀ {h a h'}, pop h = some (a, h') → (toVec h).Perm (a :: toVec h')
  le_of_pop : ∀ {h a h'}, pop h = some (a, h') → ∀ b ∈ toVec h, le b a
  toVec_of_pop_none : ∀ {h}, pop h = none → toVec h = []
  toVec_ofVec : ∀ l, (toVec (ofVec l)).Perm l

namespace BinaryHeap

variable {le : α → α → Prop}

/-- Pop until `n` elements are out or the heap is empty: what was popped, in order, and the rest. -/
def popUpTo (Q : BinaryHeap α le) : Nat → Q.Heap → List α × Q.Heap
  | 0, h => ([], h)
  | n + 1, h =>
    match Q.pop h with
    | none => ([], h)
    | some (a, h') =>
      let (popped, rest) := popUpTo Q n h'
      (a :: popped, rest)

/-- Push a list of elements. -/
def pushAll (Q : BinaryHeap α le) (h : Q.Heap) (l : List α) : Q.Heap := l.foldl Q.push h

variable (Q : BinaryHeap α le)

theorem toVec_popUpTo (n : Nat) (h : Q.Heap) :
    (Q.toVec h).Perm ((Q.popUpTo n h).1 ++ Q.toVec (Q.popUpTo n h).2) := by
  induction n generalizing h with
  | zero => exact List.Perm.refl _
  | succ n ih =>
    unfold popUpTo
    cases hpop : Q.pop h with
    | none => exact List.Perm.refl _
    | some r =>
      obtain ⟨a, h'⟩ := r
      exact (Q.toVec_pop hpop).trans ((ih h').cons a)

theorem toVec_pushAll (h : Q.Heap) (l : List α) :
    (Q.toVec (Q.pushAll h l)).Perm (l ++ Q.toVec h) := by
  induction l generalizing h with
  | nil => exact List.Perm.refl _
  | cons a l ih =>
    have htail : (Q.toVec (Q.pushAll (Q.push h a) l)).Perm (l ++ Q.toVec (Q.push h a)) := ih _
    have hhead : (l ++ Q.toVec (Q.push h a)).Perm (l ++ (a :: Q.toVec h)) :=
      (Q.toVec_push h a).append_left l
    exact (htail.trans hhead).trans List.perm_middle

/-- **Popping and pushing back** leaves the contents as they were. -/
theorem toVec_pushAll_popUpTo (n : Nat) (h : Q.Heap) :
    (Q.toVec (Q.pushAll (Q.popUpTo n h).2 (Q.popUpTo n h).1)).Perm (Q.toVec h) :=
  (Q.toVec_pushAll _ _).trans (Q.toVec_popUpTo n h).symm

/-- What is popped comes in order, and nothing that stays exceeds it. -/
theorem popUpTo_sorted (n : Nat) (h : Q.Heap) : (Q.popUpTo n h).1.Pairwise (fun a b => le b a)
      ∧ ∀ a ∈ (Q.popUpTo n h).1, ∀ b ∈ Q.toVec (Q.popUpTo n h).2, le b a := by
  induction n generalizing h with
  | zero => exact ⟨List.Pairwise.nil, fun a ha => absurd ha List.not_mem_nil⟩
  | succ n ih =>
    unfold popUpTo
    cases hpop : Q.pop h with
    | none => exact ⟨List.Pairwise.nil, fun a ha => absurd ha List.not_mem_nil⟩
    | some r =>
      obtain ⟨a, h'⟩ := r
      obtain ⟨hsorted, hrest⟩ := ih h'
      -- everything left after the first pop is at most `a`
      have hle : ∀ b, b ∈ (Q.popUpTo n h').1 ++ Q.toVec (Q.popUpTo n h').2 → le b a := by
        intro b hb
        have hmem : b ∈ Q.toVec h' := (Q.toVec_popUpTo n h').mem_iff.mpr hb
        exact Q.le_of_pop hpop b ((Q.toVec_pop hpop).mem_iff.mpr (List.mem_cons_of_mem a hmem))
      refine ⟨List.Pairwise.cons (fun b hb => hle b (List.mem_append_left _ hb)) hsorted, ?_⟩
      intro c hc b hb
      rcases List.mem_cons.mp hc with rfl | hc
      · exact hle b (List.mem_append_right _ hb)
      · exact hrest c hc b hb

theorem length_popUpTo (n : Nat) (h : Q.Heap) :
    (Q.popUpTo n h).1.length = min n (Q.toVec h).length := by
  induction n generalizing h with
  | zero => exact (Nat.zero_min _).symm
  | succ n ih =>
    unfold popUpTo
    cases hpop : Q.pop h with
    | none => rw [Q.toVec_of_pop_none hpop]; rfl
    | some r =>
      have hlength := (Q.toVec_pop hpop).length_eq
      have hrest := ih r.2
      simp only [List.length_cons] at hlength ⊢
      omega

/-! ## Sorted vectors -/

/-- The heap that keeps its elements in descending order. -/
def sortedVec (le : α → α → Prop) [DecidableRel le] [Std.Total le] [IsTrans α le] :
    BinaryHeap α le where
  Heap := { l : List α // l.Pairwise (fun a b => le b a) }
  toVec h := h.1
  new := ⟨[], List.Pairwise.nil⟩
  push h a := ⟨h.1.orderedInsert (fun a b => le b a) a, h.2.orderedInsert a h.1⟩
  pop h := match h with
    | ⟨[], _⟩ => none
    | ⟨a :: l, hl⟩ => some (a, ⟨l, hl.of_cons⟩)
  ofVec l := ⟨l.insertionSort (fun a b => le b a), List.pairwise_insertionSort _ l⟩
  toVec_new := rfl
  toVec_push h a := List.perm_orderedInsert _ a h.1
  toVec_pop := by
    intro h a h' hpop
    obtain ⟨l, hl⟩ := h
    cases l with
    | nil => exact absurd hpop (by simp)
    | cons b l =>
      obtain ⟨rfl, rfl⟩ := Prod.mk.inj (Option.some.inj hpop)
      exact List.Perm.refl _
  le_of_pop := by
    intro h a h' hpop b hb
    obtain ⟨l, hl⟩ := h
    cases l with
    | nil => exact absurd hb List.not_mem_nil
    | cons c l =>
      obtain ⟨rfl, -⟩ := Prod.mk.inj (Option.some.inj hpop)
      rcases List.mem_cons.mp hb with rfl | hb
      · exact (Std.Total.total b b).elim id id
      · exact List.rel_of_pairwise_cons hl hb
  toVec_of_pop_none := by
    grind
  toVec_ofVec l := List.perm_insertionSort _ l

end BinaryHeap
end Base
