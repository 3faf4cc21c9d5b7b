import BytecodeOpt.Allocation.Interval
import BytecodeOpt.Proofs.Table
import Mathlib.Order.Bounds.Defs

/-!
# Intervals as sets of positions

An interval stands for the set of positions that its ranges cover.  Adding a range is a union,
splitting cuts the set at a position, and the first intersection is the least common position.  The
operations that build intervals keep the ranges apart; pieces split off stay ordered.
-/

namespace BytecodeOpt.Allocation

variable {ranges : List Range} {p : Nat} {r : Range}

/-! ## Ranges -/

def Covered (ranges : List Range) (p : Nat) : Prop := ∃ r ∈ ranges, r.start ≤ p ∧ p < r.stop

def Ordered (ranges : List Range) : Prop :=
  (∀ r ∈ ranges, r.start < r.stop) ∧ ranges.Pairwise (fun a b => a.stop ≤ b.start)

def Separated (ranges : List Range) : Prop :=
  (∀ r ∈ ranges, r.start < r.stop) ∧ ranges.Pairwise (fun a b => a.stop < b.start)

theorem Separated.ordered (h : Separated ranges) : Ordered ranges :=
  ⟨h.1, h.2.imp Nat.le_of_lt⟩

@[simp] theorem not_covered_nil (p : Nat) : ¬ Covered [] p := by
  simp [Covered]

theorem covered_cons : Covered (r :: ranges) p ↔ (r.start ≤ p ∧ p < r.stop) ∨ Covered ranges p := by
  simp [Covered]

theorem covered_append {first second : List Range} :
    Covered (first ++ second) p ↔ Covered first p ∨ Covered second p := by
  simp only [Covered, List.mem_append]
  constructor
  · grind
  · grind

theorem ordered_cons :
    Ordered (r :: ranges) ↔
      r.start < r.stop ∧ (∀ s ∈ ranges, r.stop ≤ s.start) ∧ Ordered ranges := by
  simp only [Ordered, List.mem_cons, forall_eq_or_imp, List.pairwise_cons]
  tauto

theorem separated_cons :
    Separated (r :: ranges) ↔
      r.start < r.stop ∧ (∀ s ∈ ranges, r.stop < s.start) ∧ Separated ranges := by
  simp only [Separated, List.mem_cons, forall_eq_or_imp, List.pairwise_cons]
  tauto

theorem Ordered.tail_start_le (h : Ordered (r :: ranges)) (hp : Covered ranges p) : r.stop ≤ p := by
  obtain ⟨s, hs, hle, -⟩ := hp
  have hstop := (ordered_cons.1 h).2.1 s hs
  omega

theorem Ordered.head_start_le (h : Ordered (r :: ranges)) (hp : Covered (r :: ranges) p) :
    r.start ≤ p := by
  rcases covered_cons.1 hp with hp | hp
  · exact hp.1
  · have := Ordered.tail_start_le h hp
    have := (ordered_cons.1 h).1
    omega

namespace Interval

variable {i j : Interval} {a b : Range} {position : Nat}

theorem covers_iff : i.covers p = true ↔ Covered i.ranges p := by
  simp [covers, Covered, Range.covers]

theorem isEmpty_iff : i.isEmpty = true ↔ i.ranges = [] := by
  simp [isEmpty]

/-! ## The ends of an interval -/

section

variable (h : Ordered i.ranges)
include h

theorem covered_start (hne : i.ranges ≠ []) : Covered i.ranges i.start := by
  obtain ⟨value, ranges, register, isFixed⟩ := i
  cases ranges with
  | nil => exact absurd rfl hne
  | cons r rest =>
    have hr := (ordered_cons.1 h).1
    exact ⟨r, by simp, by simp [start], by simpa [start] using hr⟩

theorem start_le (hp : Covered i.ranges p) : i.start ≤ p := by
  obtain ⟨value, ranges, register, isFixed⟩ := i
  cases ranges with
  | nil => simp at hp
  | cons r rest => exact Ordered.head_start_le h hp

theorem exists_last (hne : i.ranges ≠ []) :
    ∃ last ∈ i.ranges, i.stop = last.stop ∧ ∀ r ∈ i.ranges, r.stop ≤ last.stop := by
  obtain ⟨init, last, heq⟩ := (List.eq_nil_or_concat i.ranges).resolve_left hne
  rw [heq, List.concat_eq_append] at h
  refine ⟨last, by simp [heq], by simp [stop, heq], fun r hr => ?_⟩
  rw [heq, List.concat_eq_append, List.mem_append, List.mem_singleton] at hr
  rcases hr with hr | rfl
  · have hpair := (List.pairwise_append.1 h.2).2.2 r hr last (by simp)
    have hpos := h.1 last (by simp)
    omega
  · exact Nat.le_refl _

theorem lt_stop (hp : Covered i.ranges p) : p < i.stop := by
  obtain ⟨r, hr, -, hlt⟩ := hp
  obtain ⟨last, -, hstop, hall⟩ := exists_last h (List.ne_nil_of_mem hr)
  have := hall r hr
  omega

theorem covered_last (hne : i.ranges ≠ []) : Covered i.ranges (i.stop - 1) := by
  obtain ⟨last, hlast, hstop, -⟩ := exists_last h hne
  have := h.1 last hlast
  exact ⟨last, hlast, by omega, by omega⟩

theorem start_lt_stop (hne : i.ranges ≠ []) : i.start < i.stop :=
  lt_stop h (covered_start h hne)

end

/-! ## Adding a range -/

theorem mem_insertRange {r s : Range} : s ∈ insertRange r ranges ↔ s = r ∨ s ∈ ranges := by
  induction ranges with
  | nil => simp [insertRange]
  | cons t rest ih =>
    by_cases h : t.start < r.start
    · simp only [insertRange, h, if_true, List.mem_cons, ih]
      tauto
    · simp [insertRange, h]

theorem covered_insertRange :
    Covered (insertRange r ranges) p ↔ (r.start ≤ p ∧ p < r.stop) ∨ Covered ranges p := by
  simp [Covered, mem_insertRange]

theorem separated_insertRange (hr : r.start < r.stop) (h : Separated ranges)
    (hapart : ∀ s ∈ ranges, s.stop < r.start ∨ r.stop < s.start) :
    Separated (insertRange r ranges) := by
  induction ranges with
  | nil => simpa [insertRange, separated_cons, Separated] using hr
  | cons s rest ih =>
    obtain ⟨hs, hrest, htail⟩ := separated_cons.1 h
    by_cases hlt : s.start < r.start
    · simp only [insertRange, hlt, if_true, separated_cons]
      refine ⟨hs, ?_, ih htail fun t ht => hapart t (by simp [ht])⟩
      intro t ht
      rcases mem_insertRange.1 ht with rfl | ht
      · rcases hapart s (by simp) with h | h <;> omega
      · exact hrest t ht
    · simp only [insertRange, hlt, if_false, separated_cons]
      refine ⟨hr, ?_, hs, hrest, htail⟩
      have hfirst : r.stop < s.start := by
        rcases hapart s (by simp) with h | h <;> omega
      intro t ht
      rcases List.mem_cons.1 ht with rfl | ht
      · exact hfirst
      · grind

def mergeStep (acc : List Range × Range) (s : Range) : List Range × Range :=
  if s.touches acc.2 then (acc.1, acc.2.hull s) else (acc.1 ++ [s], acc.2)

theorem mergeRange_eq (ranges : List Range) (r : Range) :
    mergeRange ranges r = insertRange (ranges.foldl mergeStep ([], r)).2
      (ranges.foldl mergeStep ([], r)).1 :=
  rfl

theorem covered_foldl_mergeStep (ranges kept : List Range) (merged : Range)
    (hpos : ∀ s ∈ ranges, s.start < s.stop) (hmerged : merged.start < merged.stop) :
    ((ranges.foldl mergeStep (kept, merged)).2.start ≤ p ∧
      p < (ranges.foldl mergeStep (kept, merged)).2.stop) ∨
      Covered (ranges.foldl mergeStep (kept, merged)).1 p ↔
      (merged.start ≤ p ∧ p < merged.stop) ∨ Covered kept p ∨ Covered ranges p := by
  induction ranges generalizing kept merged with
  | nil => simp
  | cons s rest ih =>
    have hs := hpos s (by simp)
    have hrest : ∀ t ∈ rest, t.start < t.stop := fun t ht => hpos t (by simp [ht])
    by_cases ht : s.touches merged = true
    · simp only [List.foldl_cons, mergeStep, ht, if_true]
      have hhull : (merged.hull s).start < (merged.hull s).stop := by
        simp only [Range.hull]
        omega
      rw [ih _ _ hrest hhull, covered_cons]
      simp only [Range.touches, Bool.and_eq_true, decide_eq_true_eq] at ht
      have : ((merged.hull s).start ≤ p ∧ p < (merged.hull s).stop) ↔
          (merged.start ≤ p ∧ p < merged.stop) ∨ (s.start ≤ p ∧ p < s.stop) := by
        simp only [Range.hull]
        omega
      rw [this]
      tauto
    · simp only [List.foldl_cons, mergeStep, ht, Bool.false_eq_true, if_false]
      rw [ih _ _ hrest hmerged, covered_append, covered_cons, covered_cons]
      simp only [not_covered_nil, or_false]
      tauto

theorem covered_mergeRange (h : Separated ranges) (hr : r.start < r.stop) :
    Covered (mergeRange ranges r) p ↔ Covered ranges p ∨ (r.start ≤ p ∧ p < r.stop) := by
  rw [mergeRange_eq, covered_insertRange]
  have := covered_foldl_mergeStep ranges [] r h.1 hr (p := p)
  simp only [not_covered_nil, false_or] at this
  rw [this]
  tauto

/-- What the merging keeps apart stays apart: the ranges kept so far lie before those to come, and
none of them touches the range being merged. -/
theorem separated_foldl_mergeStep (ranges kept : List Range) (merged : Range)
    (h : Separated (kept ++ ranges)) (hmerged : merged.start < merged.stop)
    (hapart : ∀ s ∈ kept, s.stop < merged.start ∨ merged.stop < s.start)
    (hbefore : ∀ s ∈ kept, merged.stop < s.start → ranges = [] ∨ ∀ t ∈ ranges,
      merged.stop < t.start) :
    let acc := ranges.foldl mergeStep (kept, merged)
    Separated acc.1 ∧ acc.2.start < acc.2.stop ∧
      ∀ s ∈ acc.1, s.stop < acc.2.start ∨ acc.2.stop < s.start := by
  induction ranges generalizing kept merged with
  | nil => exact ⟨by simpa using h, hmerged, hapart⟩
  | cons s rest ih =>
    have hpair := List.pairwise_append.1 h.2
    have hs : s.start < s.stop := h.1 s (by simp)
    have hkept : ∀ t ∈ kept, t.stop < s.start := fun t ht => hpair.2.2 t ht s (by simp)
    have hrest : ∀ t ∈ rest, s.stop < t.start := fun t ht =>
      (List.pairwise_cons.1 hpair.2.1).1 t ht
    by_cases ht : s.touches merged = true
    · simp only [List.foldl_cons, mergeStep, ht, if_true]
      simp only [Range.touches, Bool.and_eq_true, decide_eq_true_eq] at ht
      have hsep : Separated (kept ++ rest) := by
        refine ⟨fun t ht => h.1 t ?_, ?_⟩
        · rcases List.mem_append.1 ht with ht | ht <;> simp [ht]
        · grind
      -- nothing kept lies behind the merged range, since a later range still reaches it
      have hleft : ∀ t ∈ kept, t.stop < merged.start := by grind
      refine ih kept (merged.hull s) hsep ?_ ?_ ?_
      · simp only [Range.hull]
        omega
      · intro t htk
        have h1 := hleft t htk
        have h2 := hkept t htk
        left
        simp only [Range.hull]
        omega
      · intro t htk hlt
        have h1 := hleft t htk
        have hpos := h.1 t (by simp [htk])
        simp only [Range.hull] at hlt
        omega
    · simp only [List.foldl_cons, mergeStep, ht, Bool.false_eq_true, if_false]
      simp only [Range.touches, Bool.and_eq_true, decide_eq_true_eq, not_and_or] at ht
      refine ih (kept ++ [s]) merged (by simpa using h) hmerged ?_ ?_
      · grind
      · grind

theorem separated_mergeRange (h : Separated ranges) (hr : r.start < r.stop) :
    Separated (mergeRange ranges r) := by
  obtain ⟨hkept, hmerged, hapart⟩ := separated_foldl_mergeStep ranges [] r (by simpa using h) hr
    (by simp) (by simp)
  exact separated_insertRange hmerged hkept hapart

section

variable (h : Separated i.ranges)
include h

theorem separated_addRange (start stop : Nat) : Separated (i.addRange start stop).ranges := by
  unfold addRange
  split
  · exact h
  · exact separated_mergeRange h (by simp; omega)

theorem covered_addRange (start stop : Nat) :
    Covered (i.addRange start stop).ranges p ↔ Covered i.ranges p ∨ (start ≤ p ∧ p < stop) := by
  unfold addRange
  split
  · grind
  · exact covered_mergeRange h (by simp; omega)

/-! ## Definitions -/

theorem separated_defineAt (position : Nat) : Separated (i.defineAt position).ranges := by
  unfold defineAt
  split
  case h_1 first rest heq =>
    split
    · rename_i hcovers
      simp only [Range.covers, Bool.and_eq_true, decide_eq_true_eq] at hcovers
      rw [heq, separated_cons] at h
      exact separated_cons.2 ⟨hcovers.2, h.2⟩
    · exact separated_addRange h _ _
  case h_2 => exact separated_addRange h _ _

/-- The first range covers a stretch that starts no later than it and is covered whole. -/
theorem first_covers_of_stretch {first : Range} {rest : List Range} (heq : i.ranges = first :: rest)
    {start position : Nat}
    (hstart : start ≤ position) (hleast : ∀ q, Covered i.ranges q → start ≤ q)
    (hall : ∀ q, start ≤ q → q ≤ position → Covered i.ranges q) : first.covers position = true := by
  rw [heq] at h hleast hall
  have hsep := separated_cons.1 h
  have hfirst : start ≤ first.start := hleast _ (covered_cons.2 (.inl ⟨Nat.le_refl _, hsep.1⟩))
  have hreach : position < first.stop := by
    by_contra hge
    -- the position behind the first range is covered, but only a later range could do that
    rcases covered_cons.1 (hall first.stop (by omega) (by omega)) with hgap | ⟨r, hr, hle, -⟩
    · omega
    · grind
  rcases covered_cons.1 (hall position hstart (Nat.le_refl _)) with hcov | hcov
  · simpa [Range.covers] using hcov
  · have := Ordered.tail_start_le h.ordered hcov
    omega

/-- Where all or none of the stretch from the least covered position on is covered, defining keeps
what lies behind and adds the position itself. -/
theorem covered_defineAt {start position p : Nat} (hstart : start ≤ position)
    (hleast : ∀ q, Covered i.ranges q → start ≤ q)
    (hall : (∀ q, start ≤ q → q ≤ position → Covered i.ranges q) ∨ ∀ q, start ≤ q → q ≤ position →
      ¬ Covered i.ranges q) :
    Covered (i.defineAt position).ranges p ↔ p = position ∨
      (Covered i.ranges p ∧ position ≤ p) := by
  have hadd (hnone : ∀ q, start ≤ q → q ≤ position → ¬ Covered i.ranges q) :
      Covered (i.addRange position (position + 1)).ranges p ↔ p = position ∨
        (Covered i.ranges p ∧ position ≤ p) := by
    have hbehind : Covered i.ranges p → position ≤ p := fun hp =>
      Nat.le_of_not_lt fun hlt => hnone p (hleast p hp) (Nat.le_of_lt hlt) hp
    rw [covered_addRange h, and_iff_left_of_imp hbehind, or_comm]
    exact or_congr_left (by omega)
  unfold defineAt
  split
  case h_1 first rest heq =>
    split
    next hcovers =>
      simp only [Range.covers, Bool.and_eq_true, decide_eq_true_eq] at hcovers
      have htail : Covered rest p → first.stop ≤ p := Ordered.tail_start_le (heq ▸ h.ordered)
      rw [heq, covered_cons, covered_cons]
      grind
    next hcovers =>
      exact hadd
        (hall.resolve_left fun hall => hcovers (first_covers_of_stretch h heq hstart hleast hall))
  case h_2 heq => exact hadd fun q _ _ => by simp [heq]

end

/-! ## The first intersection -/

theorem intersection?_eq_some :
    a.intersection? b = some p ↔ p = max a.start b.start ∧ p < min a.stop b.stop := by
  simp only [Range.intersection?]
  split
  · grind
  · grind

theorem intersection?_eq_none :
    a.intersection? b = none ↔ min a.stop b.stop ≤ max a.start b.start := by
  simp only [Range.intersection?]
  split
  · grind
  · grind

/-- What is common to two lists and lies in the first range of one of them, when that range meets
nothing of the other list's first range and ends no later. -/
theorem not_covered_of_disjoint_head {bs : List Range} (hb : Ordered (b :: bs))
    (hnone : a.intersection? b = none) (hstop : a.stop ≤ b.stop) {q : Nat}
    (ha : a.start ≤ q ∧ q < a.stop) : ¬ Covered (b :: bs) q := by
  intro hq
  rw [intersection?_eq_none] at hnone
  rcases covered_cons.1 hq with hq | hq
  · omega
  · have := Ordered.tail_start_le hb hq
    omega

theorem covered_of_firstCommon? {as bs : List Range} (h : firstCommon? as bs = some p) :
    Covered as p ∧ Covered bs p := by
  fun_induction firstCommon? as bs with
  | case1 => simp at h
  | case2 => simp at h
  | case3 a as b bs p' hp =>
    cases h
    obtain ⟨rfl, hlt⟩ := intersection?_eq_some.1 hp
    exact ⟨covered_cons.2 (.inl (by omega)), covered_cons.2 (.inl (by omega))⟩
  | case4 a as b bs hnone hle ih => exact (ih h).imp_left fun hp => covered_cons.2 (.inr hp)
  | case5 a as b bs hnone hlt ih => exact (ih h).imp_right fun hp => covered_cons.2 (.inr hp)

/-- A common position is found, or one before it. -/
theorem exists_firstCommon? {as bs : List Range} (ha : Ordered as) (hb : Ordered bs) {q : Nat}
    (hqa : Covered as q) (hqb : Covered bs q) : ∃ p, firstCommon? as bs = some p ∧ p ≤ q := by
  fun_induction firstCommon? as bs with
  | case1 => simp at hqa
  | case2 => simp at hqb
  | case3 a as b bs p hp =>
    obtain ⟨rfl, hlt⟩ := intersection?_eq_some.1 hp
    have := Ordered.head_start_le ha hqa
    have := Ordered.head_start_le hb hqb
    exact ⟨_, rfl, by omega⟩
  | case4 a as b bs hnone hle ih =>
    rcases covered_cons.1 hqa with hq | hq
    · exact absurd hqb (not_covered_of_disjoint_head hb hnone hle hq)
    · exact ih (ordered_cons.1 ha).2.2 hb hq hqb
  | case5 a as b bs hnone hlt ih =>
    rcases covered_cons.1 hqb with hq | hq
    · have hnone' : b.intersection? a = none := by
        rw [intersection?_eq_none] at hnone ⊢
        omega
      exact absurd hqa (not_covered_of_disjoint_head ha hnone' (by omega) hq)
    · exact ih ha (ordered_cons.1 hb).2.2 hqa hq

theorem firstIntersection?_eq_none (h : ∀ p, Covered i.ranges p → ¬ Covered j.ranges p) :
    i.firstIntersection? j = none := by
  refine Option.eq_none_iff_forall_ne_some.2 fun p hp => ?_
  obtain ⟨hpi, hpj⟩ := covered_of_firstCommon? hp
  exact h p hpi hpj

/-! ## Splitting -/

theorem covered_filterMap {cut : Range → Option Range} {q : Prop}
    (h : ∀ r, (∃ s, cut r = some s ∧ s.start ≤ p ∧ p < s.stop) ↔ (r.start ≤ p ∧ p < r.stop) ∧ q) :
    Covered (ranges.filterMap cut) p ↔ Covered ranges p ∧ q := by
  simp only [Covered, List.mem_filterMap]
  constructor
  · rintro ⟨s, ⟨r, hr, hs⟩, hp⟩
    exact ⟨⟨r, hr, ((h r).1 ⟨s, hs, hp⟩).1⟩, ((h r).1 ⟨s, hs, hp⟩).2⟩
  · rintro ⟨⟨r, hr, hp⟩, hq⟩
    obtain ⟨s, hs, hp⟩ := (h r).2 ⟨hp, hq⟩
    exact ⟨s, ⟨r, hr, hs⟩, hp⟩

theorem covered_before :
    Covered (ranges.filterMap (rangeBefore? position)) p ↔ Covered ranges p ∧ p < position := by
  refine covered_filterMap fun r => ?_
  simp only [rangeBefore?, Option.ite_none_right_eq_some, Option.some.injEq, and_assoc,
    exists_and_left, exists_eq_left']
  omega

theorem covered_from :
    Covered (ranges.filterMap (rangeFrom? position)) p ↔ Covered ranges p ∧ position ≤ p := by
  refine covered_filterMap fun r => ?_
  simp only [rangeFrom?, Option.ite_none_right_eq_some, Option.some.injEq, and_assoc,
    exists_and_left, exists_eq_left']
  omega

/-- Ranges that shrink stay in order. -/
theorem Ordered.filterMap {cut : Range → Option Range}
    (hcut : ∀ {r s}, r.start < r.stop → cut r = some s → r.start ≤ s.start ∧ s.start < s.stop ∧
      s.stop ≤ r.stop)
    (h : Ordered ranges) : Ordered (ranges.filterMap cut) := by
  refine ⟨fun s hs => ?_, List.pairwise_filterMap.2 ?_⟩
  · obtain ⟨r, hr, hs⟩ := List.mem_filterMap.1 hs
    exact (hcut (h.1 r hr) hs).2.1
  · refine h.2.imp_of_mem fun {a b} ha hb hab s hs t ht => ?_
    have := hcut (h.1 a ha) hs
    have := hcut (h.1 b hb) ht
    omega

theorem ordered_before (h : Ordered ranges) (position : Nat) :
    Ordered (ranges.filterMap (rangeBefore? position)) := by
  refine Ordered.filterMap (fun hr hs => ?_) h
  rw [rangeBefore?, Option.ite_none_right_eq_some, Option.some.injEq] at hs
  obtain ⟨hlt, rfl⟩ := hs
  simp only
  omega

theorem ordered_from (h : Ordered ranges) (position : Nat) :
    Ordered (ranges.filterMap (rangeFrom? position)) := by
  refine Ordered.filterMap (fun hr hs => ?_) h
  rw [rangeFrom?, Option.ite_none_right_eq_some, Option.some.injEq] at hs
  obtain ⟨hlt, rfl⟩ := hs
  simp only
  omega

theorem size_split (ranges : List Range) (position : Nat) :
    totalOf (fun r => r.stop - r.start) (ranges.filterMap (rangeBefore? position)) +
        totalOf (fun r => r.stop - r.start) (ranges.filterMap (rangeFrom? position)) =
      totalOf (fun r => r.stop - r.start) ranges := by
  induction ranges with
  | nil => simp
  | cons r rest ih =>
    simp only [List.filterMap_cons, rangeBefore?, rangeFrom?, totalOf_cons]
    by_cases h1 : r.start < position <;> by_cases h2 : position < r.stop <;>
      simp only [h1, h2, if_true, if_false, totalOf_cons] <;> omega

theorem size_pos (h : Ordered i.ranges) (hne : i.ranges ≠ []) : 0 < i.size := by
  obtain ⟨value, ranges, register, isFixed⟩ := i
  cases ranges with
  | nil => exact absurd rfl hne
  | cons r rest =>
    have := (ordered_cons.1 h).1
    simp only [size, totalOf_cons]
    omega

theorem ne_nil_of_covered (h : Covered ranges p) : ranges ≠ [] := by
  rintro rfl
  simp at h

/-! ## Operations on sets -/

theorem covered_ofRanges (value : Operand) (added : List (Nat × Nat)) :
    Separated (ofRanges value added).ranges ∧
    ∀ p, Covered (ofRanges value added).ranges p ↔ ∃ r ∈ added, r.1 ≤ p ∧ p < r.2 := by
  have hadds : ∀ p, Separated (ofRanges value added).ranges ∧
      (Covered (ofRanges value added).ranges p ↔
      Covered [] p ∨ ∃ r ∈ added, r.1 ≤ p ∧ p < r.2) := fun p =>
    Table.foldl_adds (P := fun i : Interval => Separated i.ranges)
      (Q := fun i => Covered i.ranges p)
      (fun i hi r _ => ⟨separated_addRange hi r.1 r.2, covered_addRange hi r.1 r.2⟩)
        (by simp [Separated])
  exact ⟨(hadds 0).1, fun p => by simpa using (hadds p).2⟩

theorem ranges_rest (h : (i.splitAt position).2 = some j) :
    j.ranges = i.ranges.filterMap (rangeFrom? position) := by
  simp only [splitAt, Option.ite_none_left_eq_some, Option.some.injEq] at h
  rw [← h.2]

/-- Made by adding ranges, or split from such an interval. -/
inductive Built : Interval → Prop where
  | ofRanges (value : Operand) (added : List (Nat × Nat)) : Built (ofRanges value added)
  | before {i : Interval} (position : Nat) : Built i → Built (i.splitAt position).1
  | rest {i j : Interval} {position : Nat} : Built i → (i.splitAt position).2 = some j → Built j

theorem Built.ordered (h : Built i) : Ordered i.ranges := by
  induction h with
  | ofRanges value added => exact (covered_ofRanges value added).1.ordered
  | before position _ ih => exact ordered_before ih position
  | rest _ hsplit ih => exact ranges_rest hsplit ▸ ordered_from ih _

theorem rest_eq_none_iff (h : Ordered i.ranges) :
    (i.splitAt position).2 = none ↔ ∀ p, Covered i.ranges p → p < position := by
  have hsplit : (i.splitAt position).2 = none ↔ i.ranges.filterMap (rangeFrom? position) = [] := by
    simp [splitAt]
  rw [hsplit]
  constructor
  · intro hnone p hp
    by_contra hle
    exact ne_nil_of_covered (covered_from.2 ⟨hp, Nat.le_of_not_lt hle⟩) hnone
  · intro hall
    by_contra hne
    obtain ⟨hstart, hle⟩ :=
      covered_from.1 (covered_start (i := ⟨0, _, none, false⟩) (ordered_from h position) hne)
    exact Nat.not_lt.2 hle (hall _ hstart)

theorem isLeast_firstIntersection? (hi : Ordered i.ranges) (hj : Ordered j.ranges)
    (h : i.firstIntersection? j = some p) :
    IsLeast {q | Covered i.ranges q ∧ Covered j.ranges q} p := by
  refine ⟨covered_of_firstCommon? h, fun q hq => ?_⟩
  obtain ⟨p', hp', hle⟩ := exists_firstCommon? hi hj hq.1 hq.2
  exact Option.some.inj (h.symm.trans hp') ▸ hle

/-- Adding ranges is a union, splitting cuts the set, and the first intersection is the least common
position. -/
theorem operations_on_sets :
    (∀ value added, Separated (ofRanges value added).ranges ∧
      ∀ p, (ofRanges value added).covers p = true ↔ ∃ r ∈ added, r.1 ≤ p ∧ p < r.2) ∧
    (∀ i position, Built i →
      (∀ p, (i.splitAt position).1.covers p = true ↔ i.covers p = true ∧ p < position) ∧
      ((i.splitAt position).2 = none ↔ ∀ p, i.covers p = true → p < position) ∧
      ∀ j, (i.splitAt position).2 = some j → ∀ p, j.covers p = true ↔ i.covers p = true ∧
        position ≤ p) ∧
    ∀ i j, Built i → Built j →
      (∀ p, i.firstIntersection? j = some p ↔
        IsLeast {q | i.covers q = true ∧ j.covers q = true} p) ∧
      (i.firstIntersection? j = none ↔ ∀ p, i.covers p = true → ¬ j.covers p = true) := by
  simp only [covers_iff]
  refine ⟨covered_ofRanges,
    fun i position hi => ⟨fun p => covered_before, rest_eq_none_iff hi.ordered,
    fun j hj p => ranges_rest hj ▸ covered_from⟩, fun i j hi hj => ?_⟩
  have hleast : ∀ {p}, i.firstIntersection? j = some p → _ :=
    isLeast_firstIntersection? hi.ordered hj.ordered
  refine ⟨fun p => ⟨hleast, fun hp => ?_⟩, fun hnone p hpi hpj => ?_, firstIntersection?_eq_none⟩
  · obtain ⟨p', hp', -⟩ := exists_firstCommon? hi.ordered hj.ordered hp.1.1 hp.1.2
    rw [← Nat.le_antisymm ((hleast hp').2 hp.1) (hp.2 (hleast hp').1)]
    exact hp'
  · obtain ⟨p', hp', -⟩ := exists_firstCommon? hi.ordered hj.ordered hpi hpj
    cases hnone.symm.trans hp'

theorem operations_on_sets_piece :
    Built (ofRanges 0 [(6, 9), (0, 3)]) ∧ ((ofRanges 0 [(6, 9), (0, 3)]).splitAt 7).2 =
      some { value := 0, ranges := [⟨7, 9⟩] } ∧
      IsLeast {q | (ofRanges 0 [(6, 9), (0, 3)]).covers q = true ∧
        ({ value := 0, ranges := [⟨7, 9⟩] } : Interval).covers q = true} 7 := by
  have hbuilt : Built (ofRanges 0 [(6, 9), (0, 3)]) := .ofRanges ..
  have hsplit : ((ofRanges 0 [(6, 9), (0, 3)]).splitAt 7).2 =
      some { value := 0, ranges := [⟨7, 9⟩] } := by decide +kernel
  have hcommon := (operations_on_sets.2.2 _ _ hbuilt (.rest hbuilt hsplit)).1 7
  exact ⟨hbuilt, hsplit, hcommon.1 (by decide +kernel)⟩

end Interval

end BytecodeOpt.Allocation
