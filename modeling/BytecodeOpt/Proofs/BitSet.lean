import BytecodeOpt.BitSet
import Mathlib.Data.List.Basic
import Mathlib.Data.Nat.Bitwise

/-!
# Members of bit sets

Sets with room for the same indices are told apart by their members, and every operation is known by
what it does to them.
-/

namespace BytecodeOpt.BitSet

variable {n : Nat} {s t : BitSet} {i : Nat}

structure Fits (n : Nat) (s : BitSet) : Prop where
  capacity : s.capacity = n
  bounded : ∀ i, s.mask.testBit i = true → i < n

theorem Fits.contains_iff (h : Fits n s) : s.contains i = true ↔ s.mask.testBit i = true := by
  simp only [contains, Bool.and_eq_true, decide_eq_true_eq, and_iff_right_iff_imp, h.capacity]
  exact h.bounded i

theorem Fits.lt_of_contains (h : Fits n s) (hi : s.contains i = true) : i < n :=
  h.bounded i (h.contains_iff.1 hi)

theorem capacity_le_storage (s : BitSet) : s.capacity ≤ s.storage := by
  unfold storage wordSize
  omega

theorem Fits.ext (hs : Fits n s) (ht : Fits n t)
    (h : ∀ i, s.contains i = true ↔ t.contains i = true) : s = t := by
  have hmask : s.mask = t.mask := by
    refine Nat.eq_of_testBit_eq fun i => ?_
    rw [Bool.eq_iff_iff, ← hs.contains_iff, ← ht.contains_iff]
    exact h i
  have hcapacity := hs.capacity.trans ht.capacity.symm
  cases s
  cases t
  simp_all

/-! ## Operations -/

theorem fits_empty (n : Nat) : Fits n (empty n) := ⟨rfl, by simp [empty]⟩

@[simp] theorem contains_empty (n i : Nat) : (empty n).contains i = false := by
  simp [contains, empty]

@[simp] theorem contains_default (i : Nat) : (default : BitSet).contains i = false := by
  change (decide (i < 0) && _) = false
  simp

theorem testBit_insert (hi : i < s.capacity) (j : Nat) :
    (s.insert i).mask.testBit j = (s.mask.testBit j || decide (i = j)) := by
  rw [insert, if_pos hi]
  simp only [Nat.testBit_or, Nat.one_shiftLeft, Nat.testBit_two_pow]

theorem fits_insert (h : Fits n s) (i : Nat) : Fits n (s.insert i) := by
  by_cases hi : i < s.capacity
  · refine ⟨by rw [insert, if_pos hi]; exact h.capacity, fun j hj => ?_⟩
    rw [testBit_insert hi, Bool.or_eq_true, decide_eq_true_eq] at hj
    rcases hj with hj | rfl
    · exact h.bounded j hj
    · exact h.capacity ▸ hi
  · rw [insert, if_neg hi]
    exact h

theorem contains_insert (h : Fits n s) {i j : Nat} :
    (s.insert i).contains j = true ↔ (j = i ∧ i < n) ∨ s.contains j = true := by
  rw [(fits_insert h i).contains_iff, h.contains_iff]
  by_cases hi : i < s.capacity
  · have hn : i < n := h.capacity ▸ hi
    rw [testBit_insert hi, Bool.or_eq_true, decide_eq_true_eq, or_comm, eq_comm]
    simp [hn]
  · have hn : ¬ i < n := h.capacity ▸ hi
    rw [insert, if_neg hi]
    simp [hn]

theorem testBit_union (hs : Fits n s) (ht : Fits n t) (i : Nat) :
    (s.union t).mask.testBit i = (s.mask.testBit i || t.mask.testBit i) := by
  simp only [union, Nat.testBit_or, Nat.one_shiftLeft, Nat.testBit_mod_two_pow]
  by_cases hi : t.mask.testBit i = true
  · have hstorage : i < s.storage :=
      Nat.lt_of_lt_of_le (ht.bounded i hi) (hs.capacity ▸ capacity_le_storage s)
    simp [hi, hstorage]
  · simp [hi]

theorem fits_union (hs : Fits n s) (ht : Fits n t) : Fits n (s.union t) := by
  refine ⟨hs.capacity, fun i hi => ?_⟩
  rw [testBit_union hs ht, Bool.or_eq_true] at hi
  exact hi.elim (hs.bounded i) (ht.bounded i)

theorem contains_union (hs : Fits n s) (ht : Fits n t) :
    (s.union t).contains i = true ↔ s.contains i = true ∨ t.contains i = true := by
  rw [(fits_union hs ht).contains_iff, testBit_union hs ht, Bool.or_eq_true, hs.contains_iff,
    ht.contains_iff]

theorem testBit_difference (i : Nat) :
    (s.difference t).mask.testBit i = (s.mask.testBit i && !t.mask.testBit i) := by
  simp only [difference, Nat.testBit_xor, Nat.testBit_and]
  cases s.mask.testBit i <;> cases t.mask.testBit i <;> rfl

theorem fits_difference (hs : Fits n s) : Fits n (s.difference t) := by
  refine ⟨hs.capacity, fun i hi => ?_⟩
  rw [testBit_difference, Bool.and_eq_true] at hi
  exact hs.bounded i hi.1

theorem contains_difference (hs : Fits n s) (ht : Fits n t) :
    (s.difference t).contains i = true ↔ s.contains i = true ∧ t.contains i = false := by
  rw [(fits_difference hs).contains_iff, testBit_difference, Bool.and_eq_true, hs.contains_iff,
    Bool.not_eq_true', ← Bool.not_eq_true, ← Bool.not_eq_true, ht.contains_iff]

/-! ## Members as a list -/

theorem mem_toList (h : Fits n s) : i ∈ s.toList ↔ s.contains i = true := by
  rw [toList, List.mem_filter, List.mem_range, h.contains_iff, and_iff_right_iff_imp]
  intro hi
  exact Nat.lt_of_lt_of_le (h.bounded i hi) (h.capacity ▸ capacity_le_storage s)

end BytecodeOpt.BitSet
