/-
  Path-compressed binary tries over `w`-bit paths.

  A branch names the number of leading bits all its paths share, and those bits; its two sides
  differ in the next bit.  Nothing else is a choice, so a finite set of entries has exactly one
  canonical trie (`Canonical.eq_of_entries`), and an update that keeps the trie canonical and changes
  the right entry ends in the trie of the new set, whatever was done before (`entries_update`,
  `Canonical.update`).

  1. bits of a path: `commonBits`, `keepBits`, and how the numeric order of paths reads them;
  2. tries, their entries, and what it is to be canonical;
  3. joining two tries and changing one entry;
  4. the shape of a canonical trie: its subtries, its height, and that it is unique.
-/
import Mathlib.Tactic.Positivity

namespace Base
variable {V : Type}

/-! ## Bits of a path -/

/-- The first `n` bits of two paths are the same. -/
def Agree (n : Nat) (p q : BitVec w) : Prop := ∀ i < n, p.getMsbD i = q.getMsbD i

/-- The number of leading bits two paths share. -/
def commonBits (p q : BitVec w) : Nat :=
  ((List.range w).find? fun i => p.getMsbD i != q.getMsbD i).getD w

/-- The first `n` bits of a path, the others cleared. -/
def keepBits (p : BitVec w) (n : Nat) : BitVec w := (p >>> (w - n)) <<< (w - n)

theorem Agree.refl (n : Nat) (p : BitVec w) : Agree n p p := fun _ _ => rfl

variable {p q : BitVec w}

theorem Agree.symm (h : Agree n p q) : Agree n q p := fun i hi => (h i hi).symm

theorem Agree.trans (h : Agree n p q) (h' : Agree n q r) : Agree n p r :=
  fun i hi => (h i hi).trans (h' i hi)

theorem Agree.mono (h : Agree n p q) (hmn : m ≤ n) : Agree m p q :=
  fun i hi => h i (Nat.lt_of_lt_of_le hi hmn)

theorem Agree.succ (h : Agree n p q) (hbit : p.getMsbD n = q.getMsbD n) : Agree (n + 1) p q := by
  grind [Agree]

theorem eq_of_agree (h : Agree w p q) : p = q := by
  apply BitVec.eq_of_getMsbD_eq
  intro i hi
  exact h i hi

theorem getMsbD_keepBits (p : BitVec w) (n i : Nat) :
    (keepBits p n).getMsbD i = (decide (i < n) && p.getMsbD i) := by
  grind [keepBits]

theorem agree_keepBits (p : BitVec w) (n : Nat) : Agree n (keepBits p n) p := by
  intro i hi
  rw [getMsbD_keepBits, decide_eq_true hi, Bool.true_and]

theorem keepBits_eq_iff : keepBits p n = keepBits q n ↔ Agree n p q := by
  constructor
  · intro h
    exact ((agree_keepBits p n).symm.trans (h ▸ .refl n (keepBits p n))).trans (agree_keepBits q n)
  · intro h
    apply BitVec.eq_of_getMsbD_eq
    intro i _
    rw [getMsbD_keepBits, getMsbD_keepBits]
    by_cases hlt : i < n
    · rw [h i hlt]
    · rw [decide_eq_false hlt, Bool.false_and, Bool.false_and]

theorem keepBits_keepBits (p : BitVec w) (n : Nat) : keepBits (keepBits p n) n = keepBits p n :=
  keepBits_eq_iff.mpr (agree_keepBits p n)

/-- The shared bits are shared, and end at a difference unless they are all of them. -/
theorem commonBits_spec (p q : BitVec w) : Agree (commonBits p q) p q ∧
      (commonBits p q < w ∧ p.getMsbD (commonBits p q) ≠ q.getMsbD (commonBits p q)
        ∨ commonBits p q = w) := by
  unfold commonBits
  cases hfind : (List.range w).find? fun i => p.getMsbD i != q.getMsbD i with
  | none =>
    rw [List.find?_eq_none] at hfind
    refine ⟨fun i hi => ?_, .inr rfl⟩
    have hsame := hfind i (List.mem_range.mpr hi)
    simpa using hsame
  | some n =>
    rw [List.find?_range_eq_some] at hfind
    obtain ⟨hdiff, hmem, hbefore⟩ := hfind
    refine ⟨fun i hi => ?_, .inl ⟨List.mem_range.mp hmem, ?_⟩⟩
    · have hsame := hbefore i hi
      simpa using hsame
    · simpa using hdiff

theorem agree_commonBits (p q : BitVec w) : Agree (commonBits p q) p q := (commonBits_spec p q).1

theorem commonBits_lt (h : p ≠ q) :
    commonBits p q < w ∧ p.getMsbD (commonBits p q) ≠ q.getMsbD (commonBits p q) := by
  grind [commonBits_spec, eq_of_agree]

/-- A common start is at least as long as any length on which the paths agree. -/
theorem commonBits_lt_of_not_agree (h : ¬ Agree n p q) : commonBits p q < n := by
  by_contra hge
  exact h ((agree_commonBits p q).mono (Nat.not_lt.mp hge))

/-! ### Paths as numbers -/

theorem agree_iff_div (hn : n ≤ w) :
    Agree n p q ↔ p.toNat / 2 ^ (w - n) = q.toNat / 2 ^ (w - n) := by
  have hshift : ∀ x : BitVec w, (x >>> (w - n)).toNat = x.toNat / 2 ^ (w - n) := by
    intro x
    rw [BitVec.toNat_ushiftRight, Nat.shiftRight_eq_div_pow]
  rw [← hshift, ← hshift, BitVec.toNat_inj]
  constructor
  · intro h
    apply BitVec.eq_of_getMsbD_eq
    intro i _
    rw [BitVec.getMsbD_ushiftRight, BitVec.getMsbD_ushiftRight]
    by_cases hlt : i < w - n
    · rw [decide_eq_true hlt, Bool.not_true, Bool.false_and, Bool.false_and]
    · rw [h (i - (w - n)) (by omega)]
  · intro h
    rw [← keepBits_eq_iff]
    unfold keepBits
    rw [h]

/-- What lies between two paths has the bits they share. -/
theorem Agree.between (h : Agree n p r) (hpq : p.toNat ≤ q.toNat)
    (hqr : q.toNat ≤ r.toNat) : Agree n p q := by
  intro i hi
  by_cases hiw : i < w
  · have hle : min n w ≤ w := Nat.min_le_right n w
    have hpr := (agree_iff_div hle).mp (h.mono (Nat.min_le_left n w))
    have h1 := Nat.div_le_div_right (c := 2 ^ (w - min n w)) hpq
    have h2 := Nat.div_le_div_right (c := 2 ^ (w - min n w)) hqr
    exact (agree_iff_div hle).mpr (by omega) i (Nat.lt_min.mpr ⟨hi, hiw⟩)
  · rw [BitVec.getMsbD_of_ge p i (by omega), BitVec.getMsbD_of_ge q i (by omega)]

/-- Among paths with the same first `n` bits, the next bit never falls. -/
theorem getMsbD_mono (h : Agree n p q) (hpq : p.toNat ≤ q.toNat)
    (hbit : p.getMsbD n = true) : q.getMsbD n = true := by
  have hn : n < w := by
    by_contra hge
    rw [BitVec.getMsbD_of_ge p n (by omega)] at hbit
    exact Bool.false_ne_true hbit
  have hvalue : ∀ x : BitVec w, x.getMsbD n = decide (x.toNat / 2 ^ (w - (n + 1)) % 2 = 1) := by
    intro x
    have hsub : w - 1 - n = w - (n + 1) := by omega
    rw [BitVec.getMsbD, decide_eq_true hn, Bool.true_and, hsub, BitVec.getLsbD,
      Nat.testBit_eq_decide_div_mod_eq]
  have hhalf : ∀ x : BitVec w, x.toNat / 2 ^ (w - (n + 1)) / 2 = x.toNat / 2 ^ (w - n) := by
    intro x
    rw [Nat.div_div_eq_div_mul, ← Nat.pow_succ]
    have hexp : w - (n + 1) + 1 = w - n := by omega
    rw [Nat.succ_eq_add_one, hexp]
  have hsame := (agree_iff_div (Nat.le_of_lt hn)).mp h
  rw [← hhalf, ← hhalf] at hsame
  have hle := Nat.div_le_div_right (c := 2 ^ (w - (n + 1))) hpq
  rw [hvalue, decide_eq_true_eq] at hbit ⊢
  omega

/-! ## Tries -/

/-- A trie with at least one entry.  `branch bits pfx left right` holds paths that share the first
    `bits` bits, which are those of `pfx`; the next bit is clear on the left and set on the
    right. -/
inductive Trie (w : Nat) (V : Type) where
  | leaf (path : BitVec w) (value : V)
  | branch (bits : Nat) (pfx : BitVec w) (left right : Trie w V)

namespace Trie

/-- The entries, from left to right. -/
def entries : Trie w V → List (BitVec w × V)
  | leaf path value => [(path, value)]
  | branch _ _ left right => left.entries ++ right.entries

/-- The entries of a trie that may be empty. -/
def optEntries (t : Option (Trie w V)) : List (BitVec w × V) := (t.map entries).getD []

/-- Every branch says what its paths share and is the place where they first differ. -/
def Canonical : Trie w V → Prop
  | leaf _ _ => True
  | branch bits pfx left right =>
      bits < w ∧ keepBits pfx bits = pfx ∧ left.Canonical ∧ right.Canonical
        ∧ (∀ e ∈ left.entries, Agree bits e.1 pfx ∧ e.1.getMsbD bits = false)
        ∧ (∀ e ∈ right.entries, Agree bits e.1 pfx ∧ e.1.getMsbD bits = true)

/-- A trie that may be empty is canonical. -/
def OptCanonical (t : Option (Trie w V)) : Prop := ∀ s, t = some s → s.Canonical

variable {e : BitVec w × V}

@[simp] theorem mem_entries_leaf :
    e ∈ (leaf path value).entries ↔ e = (path, value) := List.mem_singleton

variable {bits : Nat} {pfx : BitVec w} {left right : Trie w V}

@[simp] theorem mem_entries_branch :
    e ∈ (branch bits pfx left right).entries ↔ e ∈ left.entries ∨ e ∈ right.entries :=
  List.mem_append

@[simp] theorem mem_optEntries_none : e ∈ optEntries (none : Option (Trie w V)) ↔ False := by
  simp [optEntries]

variable {t : Trie w V}

@[simp] theorem mem_optEntries_some : e ∈ optEntries (some t) ↔ e ∈ t.entries := Iff.rfl

theorem exists_entry (t : Trie w V) : ∃ e, e ∈ t.entries := by
  induction t with
  | leaf path value => exact ⟨_, mem_entries_leaf.mpr rfl⟩
  | branch bits pfx left right ihl ihr =>
    obtain ⟨e, he⟩ := ihl
    exact ⟨e, mem_entries_branch.mpr (.inl he)⟩

section
variable (h : (branch bits pfx left right).Canonical)
include h

theorem Canonical.agree (he : e ∈ (branch bits pfx left right).entries) : Agree bits e.1 pfx := by
  obtain ⟨-, -, -, -, hl, hr⟩ := h
  rcases mem_entries_branch.mp he with hmem | hmem
  · exact (hl e hmem).1
  · exact (hr e hmem).1

/-- A side of a branch is the entries with its bit. -/
theorem Canonical.mem_left :
    e ∈ left.entries ↔ e ∈ (branch bits pfx left right).entries ∧ e.1.getMsbD bits = false := by
  obtain ⟨-, -, -, -, hl, hr⟩ := h
  grind [mem_entries_branch]

theorem Canonical.mem_right :
    e ∈ right.entries ↔ e ∈ (branch bits pfx left right).entries ∧ e.1.getMsbD bits = true := by
  obtain ⟨-, -, -, -, hl, hr⟩ := h
  grind [mem_entries_branch]

/-- A branch parts at a bit in which its entries differ. -/
theorem Canonical.parts : (∃ e ∈ (branch bits pfx left right).entries, e.1.getMsbD bits = false)
      ∧ ∃ e ∈ (branch bits pfx left right).entries, e.1.getMsbD bits = true := by
  grind [exists_entry, mem_left, mem_right, entries]

end

variable {p : BitVec w}

/-- Entries that agree further than a branch are not all of it. -/
theorem Canonical.bits_ge (h : (branch bits pfx left right).Canonical)
    (hall : ∀ e ∈ (branch bits pfx left right).entries, Agree n e.1 p) : n ≤ bits := by
  by_contra hlt
  obtain ⟨⟨e, he, hclear⟩, ⟨f, hf, hset⟩⟩ := h.parts
  have hef := (hall e he).trans (hall f hf).symm bits (Nat.not_le.mp hlt)
  rw [hclear, hset] at hef
  exact Bool.noConfusion hef

/-! ## Uniqueness -/

variable {s : Trie w V}

/-- **One trie per set of entries.** -/
theorem Canonical.eq_of_entries (hs : s.Canonical) (ht : t.Canonical)
    (h : ∀ e, e ∈ s.entries ↔ e ∈ t.entries) : s = t := by
  induction s generalizing t with
  | leaf path value =>
    cases t with
    | leaf path' value' =>
      simp_all
    | branch bits pfx left right =>
      -- a branch has two paths
      obtain ⟨⟨e, he, hclear⟩, ⟨f, hf, hset⟩⟩ := ht.parts
      grind [mem_entries_leaf]
  | branch bits pfx left right ihl ihr =>
    cases t with
    | leaf path' value' =>
      grind [parts, mem_entries_leaf]
    | branch bits' pfx' left' right' =>
      -- each branch parts where the other's paths still agree, unless at the same bit
      have hle : bits' ≤ bits := hs.bits_ge fun e he => ht.agree ((h e).mp he)
      have hge : bits ≤ bits' := ht.bits_ge fun e he => hs.agree ((h e).mpr he)
      have hbits : bits = bits' := Nat.le_antisymm hge hle
      subst hbits
      have hpfx : pfx = pfx' := by
        obtain ⟨e, he⟩ := (branch bits pfx left right).exists_entry
        rw [← hs.2.1, ← ht.2.1, keepBits_eq_iff]
        exact (hs.agree he).symm.trans (ht.agree ((h e).mp he))
      have hleft : left = left' :=
        ihl hs.2.2.1 ht.2.2.1 fun e => by rw [hs.mem_left, ht.mem_left, h e]
      have hright : right = right' :=
        ihr hs.2.2.2.1 ht.2.2.2.1 fun e => by rw [hs.mem_right, ht.mem_right, h e]
      rw [hpfx, hleft, hright]

/-- The trie of a single entry. -/
theorem Canonical.eq_leaf (h : t.Canonical) (hall : ∀ f ∈ t.entries, f = e) : t = leaf e.1 e.2 := by
  obtain ⟨f, hf⟩ := t.exists_entry
  refine h.eq_of_entries trivial fun f' => ?_
  rw [mem_entries_leaf]
  exact ⟨hall f', fun he => (he.trans (hall f hf).symm) ▸ hf⟩

theorem OptCanonical.eq_of_entries {s t : Option (Trie w V)} (hs : OptCanonical s)
    (ht : OptCanonical t) (h : ∀ e, e ∈ optEntries s ↔ e ∈ optEntries t) : s = t := by
  cases s with
  | none =>
    cases t with
    | none => rfl
    | some t =>
      obtain ⟨e, he⟩ := t.exists_entry
      exact absurd ((h e).mpr he) mem_optEntries_none.mp
  | some s =>
    cases t with
    | none =>
      obtain ⟨e, he⟩ := s.exists_entry
      exact absurd ((h e).mp he) mem_optEntries_none.mp
    | some t => rw [(hs s rfl).eq_of_entries (ht t rfl) h]

/-! ## Joining and updating -/

/-- Two tries whose paths first differ where `p` and `q` do, under one branch. -/
def join (s : Trie w V) (p : BitVec w) (t : Trie w V) (q : BitVec w) : Trie w V :=
  if p.getMsbD (commonBits p q) then branch (commonBits p q) (keepBits p (commonBits p q)) t s
  else branch (commonBits p q) (keepBits p (commonBits p q)) s t

/-- Set the value at a path, or delete the path. -/
def update : Trie w V → BitVec w → Option V → Option (Trie w V)
  | leaf path value, q, new =>
      if path = q then new.map (leaf q)
      else match new with
        | none => some (leaf path value)
        | some v => some (join (leaf path value) path (leaf q v) q)
  | branch bits pfx left right, q, new =>
      if keepBits q bits ≠ keepBits pfx bits then
        match new with
        | none => some (branch bits pfx left right)
        | some v => some (join (branch bits pfx left right) pfx (leaf q v) q)
      else if q.getMsbD bits then
        match right.update q new with
        | none => some left
        | some right => some (branch bits pfx left right)
      else
        match left.update q new with
        | none => some right
        | some left => some (branch bits pfx left right)

/-- `update` on a trie that may be empty. -/
def optUpdate (t : Option (Trie w V)) (q : BitVec w) (new : Option V) : Option (Trie w V) :=
  match t with
  | none => new.map (leaf q)
  | some t => t.update q new

variable {q : BitVec w}

theorem mem_entries_join : e ∈ (join s p t q).entries ↔ e ∈ s.entries ∨ e ∈ t.entries := by
  unfold join
  split
  · rw [mem_entries_branch, or_comm]
  · rw [mem_entries_branch]

/-- Tries that part where `p` and `q` do join to a canonical one. -/
theorem Canonical.join (hs : s.Canonical) (ht : t.Canonical)
    (hpq : p ≠ q) (hsp : ∀ e ∈ s.entries, Agree (commonBits p q + 1) e.1 p)
    (htq : ∀ e ∈ t.entries, Agree (commonBits p q + 1) e.1 q) : (join s p t q).Canonical := by
  obtain ⟨hlt, hdiff⟩ := commonBits_lt hpq
  have hnorm := keepBits_keepBits p (commonBits p q)
  have hkeep : Agree (commonBits p q) p (keepBits p (commonBits p q)) := (agree_keepBits p _).symm
  have hs' : ∀ e ∈ s.entries, Agree (commonBits p q) e.1 (keepBits p (commonBits p q))
      ∧ e.1.getMsbD (commonBits p q) = p.getMsbD (commonBits p q) := fun e he =>
    ⟨((hsp e he).mono (Nat.le_succ _)).trans hkeep, hsp e he _ (Nat.lt_succ_self _)⟩
  have ht' : ∀ e ∈ t.entries, Agree (commonBits p q) e.1 (keepBits p (commonBits p q))
      ∧ e.1.getMsbD (commonBits p q) = q.getMsbD (commonBits p q) := fun e he =>
    ⟨(((htq e he).mono (Nat.le_succ _)).trans (agree_commonBits p q).symm).trans hkeep,
      htq e he _ (Nat.lt_succ_self _)⟩
  unfold Trie.join
  split
  · rename_i hp
    have hq : q.getMsbD (commonBits p q) = false := by
      rw [hp] at hdiff
      exact Bool.eq_false_iff.mpr fun hq => hdiff hq.symm
    exact ⟨hlt, hnorm, ht, hs, fun e he => ⟨(ht' e he).1, (ht' e he).2.trans hq⟩,
      fun e he => ⟨(hs' e he).1, (hs' e he).2.trans hp⟩⟩
  · rename_i hp
    rw [Bool.not_eq_true] at hp
    have hq : q.getMsbD (commonBits p q) = true := by
      rw [hp] at hdiff
      exact Bool.not_eq_false _ |>.mp fun hq => hdiff hq.symm
    exact ⟨hlt, hnorm, hs, ht, fun e he => ⟨(hs' e he).1, (hs' e he).2.trans hp⟩,
      fun e he => ⟨(ht' e he).1, (ht' e he).2.trans hq⟩⟩

/-- What an update leaves at the other paths, and puts at its own. -/
def Updated (old : List (BitVec w × V)) (q : BitVec w) (new : Option V)
    (entries : List (BitVec w × V)) : Prop :=
  ∀ e, e ∈ entries ↔ (e.1 ≠ q ∧ e ∈ old) ∨ (e.1 = q ∧ new = some e.2)

/-- A new leaf beside a trie that does not have its path. -/
theorem updated_join (habsent : ∀ e ∈ s.entries, e.1 ≠ q) :
    Updated s.entries q (some v) (join s p (leaf q v) q).entries := by
  intro e
  grind [mem_entries_join, mem_entries_leaf]

/-- Deleting a path that is not there. -/
theorem updated_absent {old : List (BitVec w × V)}
    (habsent : ∀ e ∈ old, e.1 ≠ q) : Updated old q none old := by
  intro e
  grind

/-- An update of one part of the entries, when the path is not in the other part. -/
theorem Updated.append {old new' other : List (BitVec w × V)}
    (h : Updated old q new new') (habsent : ∀ e ∈ other, e.1 ≠ q) (e : BitVec w × V) :
    (e ∈ new' ∨ e ∈ other) ↔ (e.1 ≠ q ∧ (e ∈ old ∨ e ∈ other)) ∨ (e.1 = q ∧ new = some e.2) := by
  rw [h e]
  grind

/-- **An update changes one entry.** -/
theorem entries_update (h : t.Canonical) (q : BitVec w) (new : Option V) :
    Updated t.entries q new (optEntries (t.update q new)) := by
  induction t with
  | leaf path value =>
    unfold update
    split
    · rename_i hpath
      subst hpath
      intro e
      cases new with
      | none =>
        simp only [Option.map_none, mem_optEntries_none, mem_entries_leaf, false_iff]
        rintro (⟨hne, rfl⟩ | ⟨-, hnone⟩)
        · exact hne rfl
        · simp at hnone
      | some v =>
        simp only [Option.map_some, mem_optEntries_some, mem_entries_leaf, Option.some.injEq]
        constructor
        · rintro rfl
          exact .inr ⟨rfl, rfl⟩
        · rintro (⟨hne, rfl⟩ | ⟨hq, hv⟩)
          · exact absurd rfl hne
          · exact Prod.ext hq hv.symm
    · rename_i hpath
      have habsent : ∀ e ∈ (leaf path value : Trie w V).entries, e.1 ≠ q := by
        intro e he
        rw [mem_entries_leaf.mp he]
        exact hpath
      cases new with
      | none => exact updated_absent habsent
      | some v => exact updated_join habsent
  | branch bits pfx left right ihl ihr =>
    unfold update
    split
    · rename_i hpfx
      -- none of these paths starts as the branch does
      have habsent : ∀ e ∈ (branch bits pfx left right).entries, e.1 ≠ q := by
        rintro e he rfl
        exact hpfx (keepBits_eq_iff.mpr (h.agree he))
      cases new with
      | none => exact updated_absent habsent
      | some v => exact updated_join habsent
    · split
      · rename_i hbit
        have habsent : ∀ e ∈ left.entries, e.1 ≠ q := by
          rintro e he rfl
          rw [(h.mem_left.mp he).2] at hbit
          exact Bool.noConfusion hbit
        have happend := (ihr h.2.2.2.1).append habsent
        intro e
        rw [mem_entries_branch, or_comm (a := e ∈ left.entries), ← happend e]
        cases right.update q new with
        | none => simp only [mem_optEntries_some, mem_optEntries_none, false_or]
        | some right' => simp only [mem_optEntries_some, mem_entries_branch, or_comm]
      · rename_i hbit
        rw [Bool.not_eq_true] at hbit
        have habsent : ∀ e ∈ right.entries, e.1 ≠ q := by
          rintro e he rfl
          rw [(h.mem_right.mp he).2] at hbit
          exact Bool.noConfusion hbit
        have happend := (ihl h.2.2.1).append habsent
        intro e
        rw [mem_entries_branch, ← happend e]
        cases left.update q new with
        | none => simp only [mem_optEntries_some, mem_optEntries_none, false_or]
        | some left' => simp only [mem_optEntries_some, mem_entries_branch]

/-- **An update leaves the trie canonical.** -/
theorem Canonical.update (h : t.Canonical) (q : BitVec w) (new : Option V) :
    OptCanonical (t.update q new) := by
  induction t with
  | leaf path value =>
    intro s hs
    unfold Trie.update at hs
    split at hs
    · cases new with
      | none => exact absurd hs (by simp)
      | some v =>
        rw [Option.map_some, Option.some.injEq] at hs
        rw [← hs]
        trivial
    · rename_i hpath
      cases new with
      | none =>
        rw [← Option.some.inj hs]
        trivial
      | some v =>
        cases hs
        refine .join trivial trivial hpath ?_ ?_
        · simp [Agree.refl]
        simp [Agree.refl]
  | branch bits pfx left right ihl ihr =>
    intro s hs
    unfold Trie.update at hs
    split at hs
    · rename_i hpfx
      cases new with
      | none =>
        rw [← Option.some.inj hs]
        exact h
      | some v =>
        cases hs
        have hna : ¬ Agree bits pfx q := fun ha => hpfx (keepBits_eq_iff.mpr ha.symm)
        have hlt := commonBits_lt_of_not_agree hna
        refine .join h trivial ?_ ?_ ?_
        · rintro rfl
          exact hna (.refl _ _)
        · intro e he
          exact (h.agree he).mono hlt
        simp [Agree.refl]
    · rename_i hpfx
      rw [Decidable.not_not, keepBits_eq_iff] at hpfx
      obtain ⟨hlt, hnorm, hcl, hcr, hleft, hright⟩ := h
      split at hs
      · rename_i hbit
        -- every entry of the new right side is an old one or the new one
        have hmem := entries_update hcr q new
        revert hs
        cases hup : right.update q new with
        | none =>
          grind
        | some right' =>
          intro hs
          cases hs
          rw [hup] at hmem
          refine ⟨hlt, hnorm, hcl, ihr hcr right' hup, hleft, fun e he => ?_⟩
          rcases (hmem e).mp he with ⟨-, hold⟩ | ⟨hq, -⟩
          · exact hright e hold
          · rw [hq]
            exact ⟨hpfx, hbit⟩
      · rename_i hbit
        rw [Bool.not_eq_true] at hbit
        have hmem := entries_update hcl q new
        revert hs
        cases hup : left.update q new with
        | none =>
          grind
        | some left' =>
          intro hs
          rw [← Option.some.inj hs]
          rw [hup] at hmem
          refine ⟨hlt, hnorm, ihl hcl left' hup, hcr, fun e he => ?_, hright⟩
          rcases (hmem e).mp he with ⟨-, hold⟩ | ⟨hq, -⟩
          · exact hleft e hold
          · rw [hq]
            exact ⟨hpfx, hbit⟩

section
variable {t : Option (Trie w V)} (h : OptCanonical t) (q : BitVec w) (new : Option V)
include h

theorem entries_optUpdate : Updated (optEntries t) q new (optEntries (optUpdate t q new)) := by
  cases t with
  | some t => exact entries_update (h t rfl) q new
  | none =>
    intro e
    cases new with
    | none => simp [optUpdate]
    | some v =>
      grind [optUpdate, mem_optEntries_some, mem_entries_leaf, mem_optEntries_none]

theorem OptCanonical.update : OptCanonical (optUpdate t q new) := by
  cases t with
  | some t => exact (h t rfl).update q new
  | none =>
    intro s hs
    cases new with
    | none => exact absurd hs (by simp [optUpdate])
    | some v =>
      rw [optUpdate, Option.map_some, Option.some.injEq] at hs
      rw [← hs]
      trivial

end

/-! ## Subtries and height -/

/-- `s` is `t` or below it. -/
def Sub (s : Trie w V) : Trie w V → Prop
  | leaf path value => s = leaf path value
  | branch bits pfx left right => s = branch bits pfx left right ∨ Sub s left ∨ Sub s right

theorem Sub.refl (t : Trie w V) : Sub t t := by
  cases t with
  | leaf path value => rfl
  | branch bits pfx left right => exact .inl rfl

section
variable (bits : Nat) (pfx : BitVec w) (left right : Trie w V)

theorem sub_left : Sub left (branch bits pfx left right) := .inr (.inl (.refl left))

theorem sub_right : Sub right (branch bits pfx left right) := .inr (.inr (.refl right))

end

theorem Sub.trans (hrs : Sub r s) (hst : Sub s t) : Sub r t := by
  induction t with
  | leaf path value => exact (show s = .leaf path value from hst) ▸ hrs
  | branch bits pfx left right ihl ihr =>
    grind [Sub]

theorem Sub.mem_entries (h : Sub s t) (he : e ∈ s.entries) : e ∈ t.entries := by
  induction t with
  | leaf path value =>
    rw [← (h : s = leaf path value)]
    exact he
  | branch bits pfx left right ihl ihr =>
    rcases h with rfl | h | h
    · exact he
    · exact mem_entries_branch.mpr (.inl (ihl h))
    · exact mem_entries_branch.mpr (.inr (ihr h))

/-- Every entry has its leaf. -/
theorem sub_leaf (h : e ∈ t.entries) : Sub (leaf e.1 e.2) t := by
  induction t with
  | leaf path value =>
    rw [mem_entries_leaf.mp h]
    exact .refl _
  | branch bits pfx left right ihl ihr =>
    rcases mem_entries_branch.mp h with hl | hr
    · exact .inr (.inl (ihl hl))
    · exact .inr (.inr (ihr hr))

theorem Canonical.sub (ht : t.Canonical) (h : Sub s t) : s.Canonical := by
  induction t with
  | leaf path value =>
    rw [(h : s = leaf path value)]
    trivial
  | branch bits pfx left right ihl ihr =>
    rcases h with rfl | h | h
    · exact ht
    · exact ihl ht.2.2.1 h
    · exact ihr ht.2.2.2.1 h

/-- The number of nodes on the longest way down. -/
def height : Trie w V → Nat
  | leaf _ _ => 1
  | branch _ _ left right => max left.height right.height + 1

/-- Every branch uses up a bit. -/
theorem Canonical.height_le (h : t.Canonical) (hn : n ≤ w)
    (hall : ∀ e ∈ t.entries, Agree n e.1 p) : t.height ≤ w - n + 1 := by
  induction t generalizing n p with
  | leaf path value => exact Nat.le_add_left 1 _
  | branch bits pfx left right ihl ihr =>
    have hbits := h.bits_ge hall
    obtain ⟨hlt, -, hcl, hcr, hleft, hright⟩ := h
    obtain ⟨e₀, he₀⟩ := left.exists_entry
    obtain ⟨f₀, hf₀⟩ := right.exists_entry
    have hl := ihl hcl (n := bits + 1) (p := e₀.1) hlt fun e he =>
      ((hleft e he).1.trans (hleft e₀ he₀).1.symm).succ ((hleft e he).2.trans (hleft e₀ he₀).2.symm)
    have hr := ihr hcr (n := bits + 1) (p := f₀.1) hlt fun e he =>
      ((hright e he).1.trans (hright f₀ hf₀).1.symm).succ
        ((hright e he).2.trans (hright f₀ hf₀).2.symm)
    unfold height
    omega

end Trie
end Base
