import BytecodeOpt.Proofs.Fallible
import BytecodeOpt.Proofs.Graph.DepthFirst
import BytecodeOpt.Ssa.Lift.Layout
import Mathlib.Data.List.Find

/-!
# Blocks of code

Code is cut where control can come in or go out, so a block is left only at its end and throws at
most once.  The blocks that are kept are those the entry leads to, and with a block all that it
leads to.
-/

namespace BytecodeOpt.Ssa.Layout

open Fallible

variable {code : Code} {segs : List Segment} {s : Segment} {layout : Layout} {starts : List Nat}
  {t : Nat} {k : Nat}

/-! ## Where blocks start -/

structure Leads (code : Code) (starts : List Nat) : Prop where
  sorted : starts.Pairwise (· < ·)
  inside : ∀ i ∈ starts, i < code.instructions.length
  first : 0 < code.instructions.length → 0 ∈ starts
  targets : ∀ (index : Nat) (i : Instruction), code.instructions[index]? = some i →
    ∀ t ∈ i.targets, t ∈ starts
  after_branch : ∀ (index : Nat) (i : Instruction), code.instructions[index]? = some i →
    i.isBranch = true → index + 1 < code.instructions.length → index + 1 ∈ starts
  after_throw : ∀ (index : Nat) (i : Instruction), code.instructions[index]? = some i →
    i.canThrow = true → code.handlersAt index ≠ [] →
    afterThrowing code i index < code.instructions.length → afterThrowing code i index ∈ starts
  tries : ∀ t ∈ code.tries, t.start ∈ starts ∧ (t.stop ∈ starts ∨ code.instructions.length ≤ t.stop)
  handlers : ∀ t ∈ code.tries, ∀ h ∈ t.handlers, h.target ∈ starts

theorem checkTarget_eq_ok {target t : Nat} :
    checkTarget code target = .ok t ↔ target < code.instructions.length ∧ t = target := by
  unfold checkTarget
  split
  · grind
  · simp [*]

theorem mapM_checkTarget_eq_ok {targets found : List Nat}
    (h : targets.mapM (checkTarget code) = .ok found) :
    found = targets ∧ ∀ t ∈ targets, t < code.instructions.length := by
  rw [mapM_eq_ok] at h
  induction h with
  | nil => simp
  | cons hx _ ih =>
    obtain ⟨hlt, rfl⟩ := checkTarget_eq_ok.1 hx
    obtain ⟨rfl, hall⟩ := ih
    exact ⟨rfl, by simpa using ⟨hlt, hall⟩⟩

theorem instructionLeaders_eq_ok {i : Instruction} {index : Nat} {found : List Nat}
    (h : instructionLeaders code i index = .ok found) :
    (∀ t ∈ i.targets, t < code.instructions.length ∧ t ∈ found) ∧
      (i.isBranch = true → index + 1 < code.instructions.length → index + 1 ∈ found) ∧
      (i.canThrow = true → code.handlersAt index ≠ [] → afterThrowing code i index <
        code.instructions.length →
        afterThrowing code i index ∈ found) := by
  unfold instructionLeaders at h
  obtain ⟨targets, htargets, h⟩ := bind_eq_ok.1 h
  obtain ⟨rfl, hall⟩ := mapM_checkTarget_eq_ok htargets
  obtain rfl := pure_eq_ok.1 h
  refine ⟨fun t ht => ⟨hall t ht, by simp [ht]⟩, ?_, ?_⟩
  · grind
  · grind

theorem tryLeaders_eq_ok {range : TryRange} {found : List Nat}
    (h : tryLeaders code range = .ok found) :
    (range.start < code.instructions.length ∧ range.start ∈ found) ∧
      (range.stop < code.instructions.length → range.stop ∈ found) ∧
      ∀ handler ∈ range.handlers, handler.target < code.instructions.length ∧
        handler.target ∈ found := by
  unfold tryLeaders at h
  simp only at h
  split at h
  · exact absurd h throw_bind_ne_ok
  · rename_i hrange
    simp only [Bool.or_eq_true, decide_eq_true_eq] at hrange
    obtain ⟨targets, htargets, h⟩ := bind_eq_ok.1 h
    obtain rfl := pure_eq_ok.1 h
    refine ⟨⟨by omega, by simp⟩, fun hlt => by simp [hlt], fun handler hh => ?_⟩
    rw [mapM_eq_ok] at htargets
    obtain ⟨t, ht, hcheck⟩ := exists_right_of_forall₂ htargets hh
    obtain ⟨hlt, rfl⟩ := checkTarget_eq_ok.1 hcheck
    exact ⟨hlt, by simp [ht]⟩

theorem leads_of_leaders (h : leaders code = .ok starts) : Leads code starts := by
  unfold leaders at h
  obtain ⟨ofInstructions, hinstructions, h⟩ := bind_eq_ok.1 h
  obtain ⟨ofTries, htries, h⟩ := bind_eq_ok.1 h
  obtain rfl := pure_eq_ok.1 h
  rw [mapM_eq_ok] at hinstructions htries
  have hinstruction : ∀ (index : Nat) (i : Instruction), code.instructions[index]? = some i →
      ∃ found ∈ ofInstructions ++ ofTries, instructionLeaders code i index = .ok found := by
    intro index i hi
    obtain ⟨found, hfound, hok⟩ := exists_right_of_forall₂ hinstructions (x := (i, index))
      (List.mem_zipIdx_iff_getElem?.2 hi)
    exact ⟨found, List.mem_append_left _ hfound, hok⟩
  have hmark : ∀ found ∈ ofInstructions ++ ofTries, ∀ t ∈ found, t < code.instructions.length →
      t ∈ (List.range code.instructions.length).filter
        (0 :: ofInstructions.flatten ++ ofTries.flatten).contains := by
    intro found hfound t ht hlt
    simp only [List.mem_filter, List.mem_range, hlt, true_and, List.contains_iff_mem]
    rw [List.cons_append, ← List.flatten_append]
    exact List.mem_cons_of_mem _ (List.mem_flatten.2 ⟨found, hfound, ht⟩)
  constructor
  case sorted => exact List.pairwise_lt_range.filter _
  case inside =>
    intro i hi
    exact List.mem_range.1 (List.mem_filter.1 hi).1
  case first =>
    intro hpos
    simp [hpos]
  case targets =>
    intro index i hi t ht
    obtain ⟨found, hfound, hok⟩ := hinstruction index i hi
    obtain ⟨hlt, hmem⟩ := (instructionLeaders_eq_ok hok).1 t ht
    exact hmark found hfound t hmem hlt
  case after_branch =>
    intro index i hi hbranch hlt
    obtain ⟨found, hfound, hok⟩ := hinstruction index i hi
    exact hmark found hfound _ ((instructionLeaders_eq_ok hok).2.1 hbranch hlt) hlt
  case after_throw =>
    intro index i hi hthrow hhandlers hlt
    obtain ⟨found, hfound, hok⟩ := hinstruction index i hi
    exact hmark found hfound _ ((instructionLeaders_eq_ok hok).2.2 hthrow hhandlers hlt) hlt
  case tries =>
    intro t ht
    obtain ⟨found, hfound, hok⟩ := exists_right_of_forall₂ htries ht
    obtain ⟨⟨hlt, hstart⟩, hstop, -⟩ := tryLeaders_eq_ok hok
    refine ⟨hmark found (List.mem_append_right _ hfound) _ hstart hlt, ?_⟩
    rcases Nat.lt_or_ge t.stop code.instructions.length with hlt' | hle
    · exact .inl (hmark found (List.mem_append_right _ hfound) _ (hstop hlt') hlt')
    · exact .inr hle
  case handlers =>
    intro t ht handler hh
    obtain ⟨found, hfound, hok⟩ := exists_right_of_forall₂ htries ht
    obtain ⟨hlt, hmem⟩ := (tryLeaders_eq_ok hok).2.2 handler hh
    exact hmark found (List.mem_append_right _ hfound) _ hmem hlt

theorem Leads.handlersAt_eq (h : Leads code starts) {start stop : Nat}
    (hle : stop ≤ code.instructions.length)
    (hbetween : ∀ i ∈ starts, i ≤ start ∨ stop ≤ i) {i j : Nat} (hi : start ≤ i ∧ i < stop)
    (hj : start ≤ j ∧ j < stop) :
    code.handlersAt i = code.handlersAt j := by
  have hcovers : ∀ t ∈ code.tries, t.covers i = t.covers j := by
    intro t ht
    obtain ⟨hstart, hstop⟩ := h.tries t ht
    have hfrom := hbetween _ hstart
    have hto : t.stop ≤ start ∨ stop ≤ t.stop := hstop.elim (hbetween _) fun hlength =>
      .inr (Nat.le_trans hle hlength)
    rw [Bool.eq_iff_iff]
    simp only [TryRange.covers, Bool.and_eq_true, decide_eq_true_eq]
    omega
  rw [Code.handlersAt, Code.handlersAt, List.find?_congr hcovers]

/-! ## Segments -/

theorem mem_zip_next {n : Nat} (hsorted : starts.Pairwise (· < ·)) (hlt : ∀ i ∈ starts, i < n)
    {e : Nat × Nat} (he : e ∈ starts.zip (starts.drop 1 ++ [n])) :
    e.1 < e.2 ∧ e.2 ≤ n ∧ (e.2 = n ∨ e.2 ∈ starts) ∧ ∀ i ∈ starts, i ≤ e.1 ∨ e.2 ≤ i := by
  induction starts with
  | nil => simp at he
  | cons a rest ih =>
    obtain ⟨ha, hrest⟩ := List.pairwise_cons.1 hsorted
    cases rest with
    | nil => grind
    | cons b rest =>
      have hsplit : e = (a, b) ∨ e ∈ (b :: rest).zip ((b :: rest).drop 1 ++ [n]) := by
        simpa using he
      rcases hsplit with rfl | hlater
      · refine ⟨ha b (by simp), Nat.le_of_lt (hlt b (by simp)), .inr (by simp), ?_⟩
        intro i hi
        rcases List.mem_cons.1 hi with rfl | hi
        · exact .inl (Nat.le_refl _)
        · rcases List.mem_cons.1 hi with rfl | hi
          · exact .inr (Nat.le_refl _)
          · exact .inr (Nat.le_of_lt ((List.pairwise_cons.1 hrest).1 i hi))
      · obtain ⟨h₁, h₂, h₃, h₄⟩ := ih hrest (fun i hi => hlt i (by simp [hi])) hlater
        refine ⟨h₁, h₂, h₃.imp_right (List.mem_cons_of_mem a), ?_⟩
        intro i hi
        rcases List.mem_cons.1 hi with rfl | hi
        · exact .inl (Nat.le_of_lt (ha e.1 (List.of_mem_zip hlater).1))
        · exact h₄ i hi

def nextOf (code : Code) (stop : Nat) : List Nat :=
  let last := code.instructions.getD (stop - 1) .nop
  last.targets ++ if last.endsFlow then [] else [stop]

structure Throws (code : Code) (start stop index : Nat) : Prop where
  start_le : start ≤ index
  lt_stop : index < stop
  throws : (code.instructions.getD index .nop).canThrow = true
  first : ∀ j, start ≤ j → j < index → (code.instructions.getD j .nop).canThrow = false

theorem find?_range'_canThrow {start stop index : Nat}
    (h : (List.range' start (stop - start)).find?
      (fun i => (code.instructions.getD i .nop).canThrow) = some index) :
    Throws code start stop index := by
  obtain ⟨hthrow, before, after, hsplit, hbefore⟩ := List.find?_eq_some_iff_append.1 h
  have hmem : index ∈ List.range' start (stop - start) := by simp [hsplit]
  obtain ⟨hle, hlt⟩ := List.mem_range'_1.1 hmem
  refine ⟨hle, by omega, hthrow, fun j hj hji => ?_⟩
  have hj : j ∈ List.range' start (stop - start) := List.mem_range'_1.2 ⟨hj, by omega⟩
  rw [hsplit, List.mem_append] at hj
  rcases hj with hj | hj
  · simpa using hbefore j hj
  · grind

structure Cut (code : Code) (s : Segment) : Prop where
  falls : (code.instructions.getD (s.stop - 1) .nop).endsFlow = false →
    s.stop < code.instructions.length
  next : s.next = nextOf code s.stop
  unmixed : ∀ h ∈ s.handlers, h.target ∉ s.next
  quiet : s.throwing = none → ∀ j, s.start ≤ j → j < s.stop →
    (code.instructions.getD j .nop).canThrow = true →
    ∃ index, (s.start ≤ index ∧ index < s.stop) ∧ code.handlersAt index = []
  none : s.throwing = none → s.handlers = []
  some : ∀ index, s.throwing = some index → Throws code s.start s.stop index ∧
    s.handlers = code.handlersAt index ∧ s.handlers ≠ []

theorem segmentHandlers_eq_ok {next : List Nat} {throwing : Option Nat} {handlers : List Handler} :
    segmentHandlers code next throwing = .ok handlers ↔
      handlers = (throwing.map code.handlersAt).getD [] ∧ ∀ h ∈ handlers, h.target ∉ next := by
  cases throwing with
  | none =>
    simp only [segmentHandlers, Except.ok.injEq, Option.map_none, Option.getD_none]
    constructor
    · rintro rfl
      simp
    · exact fun h => h.1.symm
  | some index =>
    simp only [segmentHandlers, Option.map_some, Option.getD_some]
    split
    · rename_i h hfind
      have hmem := List.mem_of_find?_eq_some hfind
      have htarget : h.target ∈ next := by simpa using List.find?_some hfind
      refine iff_of_false throw_ne_ok ?_
      rintro ⟨rfl, hall⟩
      exact hall h hmem htarget
    · rename_i hfind
      rw [pure_eq_ok]
      constructor
      · grind
      · exact fun h => h.1

theorem segment_eq_ok {start stop : Nat} (h : segment code start stop = .ok s) :
    s.start = start ∧ s.stop = stop ∧ Cut code s := by
  unfold segment at h
  simp only at h
  split at h
  · exact absurd h throw_bind_ne_ok
  · rename_i hflow
    obtain ⟨handlers, hhandlers, h⟩ := bind_eq_ok.1 h
    obtain rfl := pure_eq_ok.1 h
    obtain ⟨hfound, hunmixed⟩ := segmentHandlers_eq_ok.1 hhandlers
    refine ⟨rfl, rfl, ?_, rfl, hunmixed, ?_, ?_, ?_⟩
    · grind
    · intro hnone j hj hj' hthrow
      simp only at hnone hj hj'
      -- the first instruction that throws has no handlers
      cases hfind : (List.range' start (stop - start)).find?
          fun i => (code.instructions.getD i .nop).canThrow with
      | none => grind
      | some index => grind
    · grind
    · intro index hsome
      simp only at hsome ⊢
      split at hsome
      · simp at hsome
      · rename_i hempty
        rw [hsome] at hfound
        exact ⟨find?_range'_canThrow hsome, hfound, by simpa using hempty⟩

theorem map_start_of_segments (h : segments code = .ok segs) :
    ∃ starts, leaders code = .ok starts ∧ segs.map Segment.start = starts ∧
      ∀ s ∈ segs, Cut code s ∧ s.start < s.stop ∧ s.stop ≤ code.instructions.length ∧
        (s.stop = code.instructions.length ∨ s.stop ∈ starts) ∧
        ∀ i ∈ starts, i ≤ s.start ∨ s.stop ≤ i := by
  unfold segments at h
  obtain ⟨starts, hstarts, h⟩ := bind_eq_ok.1 h
  have hleads := leads_of_leaders hstarts
  rw [mapM_eq_ok] at h
  refine ⟨starts, hstarts, ?_, ?_⟩
  · have hfst : (starts.zip (starts.drop 1 ++ [code.instructions.length])).map
        Prod.fst = starts := by
      refine List.map_fst_zip ?_
      simp only [List.length_append, List.length_drop, List.length_singleton]
      omega
    rw [← hfst]
    refine List.forall₂_eq_eq_eq ▸ ?_
    rw [List.forall₂_map_left_iff, List.forall₂_map_right_iff]
    exact h.flip.imp fun s e hs => (segment_eq_ok hs).1
  · intro s hs
    obtain ⟨e, he, hok⟩ := exists_left_of_forall₂ h hs
    obtain ⟨hstart, hstop, hcut⟩ := segment_eq_ok hok
    have hnext := mem_zip_next hleads.sorted hleads.inside he
    rw [hstart, hstop]
    exact ⟨hcut, hnext⟩

/-! ## The segments that are reached -/

theorem successors_segmentGraph {i j : Nat} :
    j ∈ (segmentGraph segs).successors i ↔ ∃ s, segs[i]? = some s ∧
      ∃ t ∈ s.next ++ s.handlers.map Handler.target, segs.findIdx? (·.start == t) = some j := by
  simp only [Digraph.successors, segmentGraph, Array.getD_eq_getD_getElem?, List.getElem?_toArray,
    List.getElem?_map]
  cases segs[i]? with
  | none => simp
  | some s =>
    simp only [Option.map_some, Option.getD_some, List.mem_filterMap, Option.some.injEq,
      exists_eq_left']

theorem size_segmentGraph (segs : List Segment) : (segmentGraph segs).size = segs.length := by
  simp [Digraph.size, segmentGraph]

theorem mem_reachableSegments :
    s ∈ reachableSegments segs ↔ ∃ i, segs[i]? = some s ∧ (segmentGraph segs).Reaches 0 i := by
  simp only [reachableSegments, List.mem_map, List.mem_filter, Prod.exists, exists_and_right,
    exists_eq_right, List.mem_zipIdx_iff_getElem?, Digraph.getD_reached]

theorem reachableSegments_sublist (segs : List Segment) :
    (reachableSegments segs).Sublist segs := by
  have h := (List.filter_sublist (l := segs.zipIdx)
    (p := fun e => ((segmentGraph segs).reached 0).getD e.2 false)).map Prod.fst
  rwa [List.zipIdx_map_fst] at h

structure Closed (segs : List Segment) : Prop where
  sorted : (segs.map Segment.start).Pairwise (· < ·)
  targets : ∀ s ∈ segs, ∀ t ∈ s.next ++ s.handlers.map Handler.target, ∃ s' ∈ segs, s'.start = t

theorem Closed.findIdx? (h : (segs.map Segment.start).Pairwise (· < ·)) {i t : Nat} :
    segs.findIdx? (·.start == t) = some i ↔ ∃ s, segs[i]? = some s ∧ s.start = t := by
  rw [List.findIdx?_eq_some_iff_getElem]
  constructor
  · grind
  · rintro ⟨s, hs, hstart⟩
    obtain ⟨hi, rfl⟩ := List.getElem?_eq_some_iff.1 hs
    refine ⟨hi, by simpa using hstart, fun j hj => ?_⟩
    have := List.pairwise_iff_getElem.1 h j i (by simp; omega) (by simpa using hi) hj
    simp only [List.getElem_map] at this
    simp only [Bool.not_eq_true, beq_eq_false_iff_ne]
    omega

theorem Closed.reachable (h : Closed segs) : Closed (reachableSegments segs) := by
  refine ⟨h.sorted.sublist ((reachableSegments_sublist segs).map _), ?_⟩
  intro s hs t ht
  obtain ⟨i, hi, hpath⟩ := mem_reachableSegments.1 hs
  obtain ⟨s', hs', rfl⟩ := h.targets s ((reachableSegments_sublist segs).subset hs) t ht
  obtain ⟨j, hj⟩ := List.mem_iff_getElem?.1 hs'
  refine ⟨s', mem_reachableSegments.2 ⟨j, hj, hpath.snoc ?_ ?_ trivial⟩, rfl⟩
  · exact successors_segmentGraph.2 ⟨s, hi, _, ht, (Closed.findIdx? h.sorted).2 ⟨s', hj, rfl⟩⟩
  · rw [size_segmentGraph]
    exact (List.getElem?_eq_some_iff.1 hj).1

theorem reachableSegments_cons (s : Segment) (rest : List Segment) :
    ∃ rest', reachableSegments (s :: rest) = s :: rest' := by
  have hreach : ((segmentGraph (s :: rest)).reached 0).getD 0 false = true := by
    refine Digraph.getD_reached.2 (.refl ?_ trivial)
    simp [size_segmentGraph]
  unfold reachableSegments
  simp only [List.zipIdx_cons, List.filter_cons, hreach, if_true, List.map_cons]
  exact ⟨_, rfl⟩

theorem closed_of_segments (h : segments code = .ok segs) : Closed segs := by
  obtain ⟨starts, hstarts, rfl, hsegs⟩ := map_start_of_segments h
  have hleads := leads_of_leaders hstarts
  refine ⟨hleads.sorted, fun s hs t ht => ?_⟩
  obtain ⟨hcut, hlt, hle, hstop, -⟩ := hsegs s hs
  suffices hmem : t ∈ segs.map Segment.start by grind
  rcases List.mem_append.1 ht with ht | ht
  · rw [hcut.next, nextOf, List.mem_append] at ht
    rcases ht with ht | ht
    · refine hleads.targets (s.stop - 1) _ ?_ t ht
      rw [List.getD_eq_getElem?_getD, List.getElem?_eq_getElem (by omega)]
      rfl
    · split at ht
      · simp at ht
      · rename_i hends
        obtain rfl := List.mem_singleton.1 ht
        have := hcut.falls (by simpa using hends)
        exact hstop.resolve_left (by omega)
  · obtain ⟨handler, hh, rfl⟩ := List.mem_map.1 ht
    cases hthrow : s.throwing with
    | none =>
      rw [hcut.none hthrow] at hh
      simp at hh
    | some index =>
      rw [(hcut.some index hthrow).2.1, Code.handlersAt] at hh
      cases hfind : code.tries.find? (·.covers index) with
      | none => simp [hfind] at hh
      | some range =>
        rw [hfind] at hh
        exact hleads.handlers range (List.mem_of_find?_eq_some hfind) handler hh

/-! ## The layout -/

structure Describes (code : Code) (layout : Layout) (b : LayoutBlock) : Prop where
  start_lt : b.start < b.stop
  stop_le : b.stop ≤ code.instructions.length
  inner : ∀ i, b.start ≤ i → i + 1 < b.stop → (code.instructions.getD i .nop).isBranch = false
  next : ∃ next, List.Forall₂ (fun t target => layout.blockAt t = .ok target)
      (nextOf code b.stop) next ∧
    b.successors = (next ++ b.handlers.map Handler.target).eraseDups ∧
    ∀ h ∈ b.handlers, h.target ∉ next
  quiet : b.throwing = none → ∀ index, b.start ≤ index → index < b.stop →
    (code.instructions.getD index .nop).canThrow = true → code.handlersAt index = []
  none : b.throwing = none → b.handlers = []
  some : ∀ index, b.throwing = some index → Throws code b.start b.stop index ∧
    b.stop ≤ afterThrowing code (code.instructions.getD index .nop) index ∧ b.handlers ≠ [] ∧
    List.Forall₂ (fun h h' => layout.blockAt h.target = .ok h'.target ∧ h'.guard = h.guard)
      (code.handlersAt index) b.handlers

/-- At most one instruction of a block throws to handlers, and they are those of the block. -/
theorem Describes.handlers_of_throw {b : LayoutBlock} (h : Describes code layout b) {index : Nat}
    (hstart : b.start ≤ index) (hstop : index < b.stop)
    (hthrow : (code.instructions.getD index .nop).canThrow = true) :
    List.Forall₂ (fun h h' => layout.blockAt h.target = .ok h'.target ∧ h'.guard = h.guard)
        (code.handlersAt index) b.handlers ∧ (b.handlers ≠ [] → b.throwing = .some index) := by
  cases hthrowing : b.throwing with
  | none =>
    rw [h.none hthrowing, h.quiet hthrowing index hstart hstop hthrow]
    exact ⟨.nil, fun hne => absurd rfl hne⟩
  | some first =>
    obtain ⟨hthrows, hafter, -, hhandlers⟩ := h.some first hthrowing
    suffices heq : index = first by grind
    rcases Nat.lt_trichotomy index first with hlt | heq | hgt
    · rw [hthrows.first index hstart hlt] at hthrow
      cases hthrow
    · exact heq
    · -- behind the first there is only a result to be moved
      unfold afterThrowing at hafter
      simp only at hafter
      split at hafter
      · rename_i hresult
        obtain rfl : index = first + 1 := by omega
        rw [Bool.and_eq_true, Option.any_eq_true] at hresult
        obtain ⟨-, i, hget, hmove⟩ := hresult
        rw [List.getD_eq_getElem?_getD, hget, Option.getD_some] at hthrow
        cases i with
        | moveResult dest => cases hthrow
        | _ => cases hmove
      · omega

structure Sound (code : Code) (layout : Layout) : Prop where
  size : 1 < layout.blocks.size
  entry : layout.block 0 = { successors := [1] }
  first : (layout.block 1).start = 0
  blockAt : ∀ b, 0 < b → b < layout.blocks.size → layout.blockAt (layout.block b).start = .ok b
  describes : ∀ b, 0 < b → b < layout.blocks.size → Describes code layout (layout.block b)
  reachable : ∀ b < layout.blocks.size, layout.graph.Reaches 0 b

theorem blockAt_eq_ok {b : BlockId} (h : layout.blockAt t = .ok b) :
    0 < b ∧ b < layout.blocks.size ∧ (layout.block b).start = t := by
  unfold Layout.blockAt at h
  split at h
  · rename_i found hfind
    cases h
    have hmem := List.mem_of_find?_eq_some hfind
    have hcond := List.find?_some hfind
    simp only [Bool.and_eq_true, bne_iff_ne, ne_eq, beq_iff_eq] at hcond
    exact ⟨Nat.pos_of_ne_zero hcond.1, by simpa [blockIds] using hmem, hcond.2⟩
  · cases h

def ofKept (kept : List Segment) : Layout where
  blocks := ({ successors := [(blockIn? kept 0).getD 0] } :: kept.map (layoutBlock kept)).toArray

theorem ofCode_eq_ok :
    ofCode code = .ok layout ↔ ∃ segs, segments code = .ok segs ∧
      layout = ofKept (reachableSegments segs) := by
  unfold ofCode
  rw [bind_eq_ok]
  exact exists_congr fun segs => and_congr_right fun _ => pure_eq_ok

section Kept

variable {kept : List Segment}

theorem size_ofKept (kept : List Segment) : (ofKept kept).blocks.size = kept.length + 1 := by
  simp [ofKept]

theorem block_ofKept (h : kept[k]? = some s) :
    (ofKept kept).block (k + 1) = layoutBlock kept s := by
  simp [ofKept, block, Array.getD_eq_getD_getElem?, h]

theorem block_ofKept_zero :
    (ofKept kept).block 0 = { successors := [(blockIn? kept 0).getD 0] } := by
  simp [ofKept, block]

theorem blockIn?_eq_some (h : (kept.map Segment.start).Pairwise (· < ·)) {b : BlockId} :
    blockIn? kept t = some b ↔ ∃ k s, b = k + 1 ∧ kept[k]? = some s ∧ s.start = t := by
  simp only [blockIn?, Option.map_eq_some_iff, Closed.findIdx? h]
  constructor
  · grind
  · grind

theorem blockAt_ofKept (h : (kept.map Segment.start).Pairwise (· < ·)) (hs : kept[k]? = some s) :
    (ofKept kept).blockAt s.start = .ok (k + 1) := by
  have hk : k < kept.length := (List.getElem?_eq_some_iff.1 hs).1
  cases hat : (ofKept kept).blockAt s.start with
  | error e =>
    unfold Layout.blockAt at hat
    split at hat
    · cases hat
    · rename_i hfind
      have := List.find?_eq_none.1 hfind (k + 1) (by simp [blockIds, size_ofKept, hk])
      simp [block_ofKept hs, layoutBlock] at this
  | ok b =>
    obtain ⟨hpos, hlt, hstart⟩ := blockAt_eq_ok hat
    obtain ⟨j, rfl⟩ := Nat.exists_eq_succ_of_ne_zero (Nat.ne_of_gt hpos)
    rw [size_ofKept] at hlt
    have hj := List.getElem?_eq_getElem (Nat.lt_of_succ_lt_succ hlt)
    rw [block_ofKept hj] at hstart
    have h₁ := (Closed.findIdx? h).2 ⟨_, hj, hstart⟩
    have h₂ := (Closed.findIdx? h).2 ⟨_, hs, rfl⟩
    rw [h₁] at h₂
    cases h₂
    rfl

theorem blockAt_target (h : Closed kept) (hs : s ∈ kept)
    (ht : t ∈ s.next ++ s.handlers.map Handler.target) :
    ∃ k s', kept[k]? = some s' ∧ s'.start = t ∧ (blockIn? kept t).getD 0 = k + 1 ∧
      (ofKept kept).blockAt t = .ok (k + 1) := by
  obtain ⟨s', hs', rfl⟩ := h.targets s hs t ht
  obtain ⟨k, hk⟩ := List.mem_iff_getElem?.1 hs'
  refine ⟨k, s', hk, rfl, ?_, blockAt_ofKept h.sorted hk⟩
  rw [(blockIn?_eq_some h.sorted).2 ⟨k, s', rfl, hk, rfl⟩]
  rfl

end Kept

theorem describes_layoutBlock (hsegs : segments code = .ok segs) (hs : s ∈ reachableSegments segs) :
    Describes code (ofKept (reachableSegments segs)) (layoutBlock (reachableSegments segs) s) := by
  have hclosed := (closed_of_segments hsegs).reachable
  obtain ⟨starts, hstarts, rfl, hall⟩ := map_start_of_segments hsegs
  have hleads := leads_of_leaders hstarts
  obtain ⟨hcut, hlt, hle, -, hbetween⟩ := hall s ((reachableSegments_sublist segs).subset hs)
  have hinside : ∀ i, i < s.stop →
      code.instructions[i]? = some (code.instructions.getD i .nop) := by
    intro i hi
    rw [List.getD_eq_getElem?_getD, List.getElem?_eq_getElem (by omega)]
    rfl
  constructor
  case start_lt => exact hlt
  case stop_le => exact hle
  case inner =>
    intro i hi hi'
    simp only [layoutBlock] at hi hi'
    by_contra hbranch
    have hmem := hleads.after_branch i _ (hinside i (by omega)) (by simpa using hbranch) (by omega)
    have := hbetween _ hmem
    omega
  case next =>
    refine ⟨s.next.map fun t => (blockIn? (reachableSegments segs) t).getD 0, ?_, rfl, ?_⟩
    · simp only [layoutBlock]
      rw [← hcut.next, List.forall₂_map_right_iff, List.forall₂_same]
      intro t ht
      obtain ⟨k, s', -, -, hin, hat⟩ := blockAt_target hclosed hs (List.mem_append_left _ ht)
      rw [hin, hat]
    · intro h hh hmem
      simp only [layoutBlock, List.mem_map] at hh hmem
      obtain ⟨handler, hhandler, rfl⟩ := hh
      obtain ⟨t, ht, heq⟩ := hmem
      obtain ⟨k, s₁, hs₁, hstart₁, hin₁, -⟩ := blockAt_target hclosed hs (List.mem_append_left _ ht)
      obtain ⟨l, s₂, hs₂, hstart₂, hin₂, -⟩ := blockAt_target hclosed hs
        (List.mem_append_right _ (List.mem_map_of_mem hhandler))
      rw [hin₁, hin₂] at heq
      obtain rfl := Nat.succ_injective heq
      rw [hs₁] at hs₂
      cases hs₂
      exact hcut.unmixed handler hhandler (hstart₂ ▸ hstart₁ ▸ ht)
  case none =>
    intro hnone
    simp [layoutBlock, hcut.none hnone]
  case some =>
    intro index hsome
    obtain ⟨hthrows, hhandlers, hne⟩ := hcut.some index hsome
    refine ⟨hthrows, ?_, by simpa [layoutBlock] using hne, ?_⟩
    · by_contra hlt'
      simp only [layoutBlock, Nat.not_le] at hlt'
      have hmem := hleads.after_throw index _ (hinside index hthrows.lt_stop) hthrows.throws
        (hhandlers ▸ hne) (by omega)
      have hbehind : index < afterThrowing code (code.instructions.getD index .nop) index := by
        unfold afterThrowing
        simp only
        split <;> omega
      have := hbetween _ hmem
      have := hthrows.start_le
      omega
    · simp only [layoutBlock]
      rw [← hhandlers, List.forall₂_map_right_iff, List.forall₂_same]
      intro handler hh
      obtain ⟨k, s', -, -, hin, hat⟩ :=
        blockAt_target hclosed hs (List.mem_append_right _ (List.mem_map_of_mem hh))
      exact ⟨by rw [hin, hat], rfl⟩
  case quiet =>
    intro hnone index hstart hstop hthrow
    obtain ⟨first, hfirst, hnil⟩ := hcut.quiet hnone index hstart hstop hthrow
    rw [← hnil]
    exact hleads.handlersAt_eq hle hbetween ⟨hstart, hstop⟩ hfirst

theorem size_graph (layout : Layout) : layout.graph.size = layout.blocks.size := by
  simp [graph, Digraph.size]

theorem successors_graph (layout : Layout) (b : BlockId) :
    layout.graph.successors b = layout.successors b := by
  simp only [graph, Digraph.successors, Table.getD_map, Layout.successors, block]
  split <;> rfl

theorem reaches_ofKept (h : Closed segs) {rest : List Segment} (hcons : segs = s :: rest)
    (hzero : s.start = 0) {i : Nat} (hpath : (segmentGraph segs).Reaches 0 i)
    (hk : (reachableSegments segs)[k]? = segs[i]?)
    (hi : i < segs.length) : (ofKept (reachableSegments segs)).graph.Reaches 0 (k + 1) := by
  have hkept := h.reachable
  have hstep : ∀ (b : BlockId) (j : Nat) (s' : Segment),
      (ofKept (reachableSegments segs)).graph.Reaches 0 b →
      (reachableSegments segs)[j]? = some s' →
      j + 1 ∈ (ofKept (reachableSegments segs)).successors b →
      (ofKept (reachableSegments segs)).graph.Reaches 0 (j + 1) := by
    intro b j s' hreach hj hmem
    refine hreach.snoc (by rwa [successors_graph]) ?_ trivial
    rw [size_graph, size_ofKept]
    exact Nat.succ_lt_succ (List.getElem?_eq_some_iff.1 hj).1
  induction hpath generalizing k with
  | refl _ _ =>
    obtain ⟨rest', hrest⟩ := reachableSegments_cons s rest
    rw [← hcons] at hrest
    have hsome : (reachableSegments segs)[k]? = some s := by rw [hk, hcons]; rfl
    refine hstep 0 k s (.refl ?_ trivial) hsome ?_
    · rw [size_graph, size_ofKept]
      exact Nat.succ_pos _
    · have hin := (blockIn?_eq_some hkept.sorted).2 ⟨k, s, rfl, hsome, hzero⟩
      rw [Layout.successors, block_ofKept_zero, hin]
      simp
  | snoc hpath hmem _ _ ih =>
    obtain ⟨s₁, hs₁, t, ht, hfind⟩ := successors_segmentGraph.1 hmem
    obtain ⟨s₂, hs₂, rfl⟩ := (Closed.findIdx? h.sorted).1 hfind
    have hs₁mem : s₁ ∈ reachableSegments segs := mem_reachableSegments.2 ⟨_, hs₁, hpath⟩
    obtain ⟨j, hj⟩ := List.mem_iff_getElem?.1 hs₁mem
    rw [hs₂] at hk
    refine hstep (j + 1) k s₂ (ih (by rw [hj, hs₁]) (List.getElem?_eq_some_iff.1 hs₁).1) hk ?_
    have hin := (blockIn?_eq_some hkept.sorted).2 ⟨k, s₂, rfl, hk, rfl⟩
    rw [Layout.successors, block_ofKept hj]
    simp only [layoutBlock, List.mem_eraseDups, List.mem_append, List.mem_map]
    rcases List.mem_append.1 ht with ht | ht
    · exact .inl ⟨s₂.start, ht, by rw [hin]; rfl⟩
    · grind

theorem sound_of_ofCode (hne : code.instructions ≠ []) (h : ofCode code = .ok layout) :
    Sound code layout := by
  obtain ⟨segs, hsegs, rfl⟩ := ofCode_eq_ok.1 h
  have hclosed := closed_of_segments hsegs
  have hkept := hclosed.reachable
  obtain ⟨starts, hstarts, hmap, -⟩ := map_start_of_segments hsegs
  have hleads := leads_of_leaders hstarts
  -- the first segment starts where the code does
  obtain ⟨s, rest, rfl, hzero⟩ : ∃ s rest, segs = s :: rest ∧ s.start = 0 := by
    have hmem := hleads.first (List.length_pos_of_ne_nil hne)
    rw [← hmap] at hmem
    cases segs with
    | nil => simp at hmem
    | cons s rest =>
      refine ⟨s, rest, rfl, ?_⟩
      rcases List.mem_cons.1 hmem with hzero | hmem
      · exact hzero.symm
      · have := List.rel_of_pairwise_cons hclosed.sorted hmem
        omega
  obtain ⟨rest', hcons⟩ := reachableSegments_cons s rest
  have hfirst : (reachableSegments (s :: rest))[0]? = some s := by rw [hcons]; rfl
  have hblocks : ∀ b, 0 < b → b < (ofKept (reachableSegments (s :: rest))).blocks.size →
      ∃ k s', b = k + 1 ∧ (reachableSegments (s :: rest))[k]? = some s' := by
    intro b hpos hlt
    obtain ⟨k, rfl⟩ := Nat.exists_eq_succ_of_ne_zero (Nat.ne_of_gt hpos)
    rw [size_ofKept] at hlt
    exact ⟨k, _, rfl, List.getElem?_eq_getElem (Nat.lt_of_succ_lt_succ hlt)⟩
  constructor
  case size => simp [size_ofKept, hcons]
  case entry =>
    rw [block_ofKept_zero, (blockIn?_eq_some hkept.sorted).2 ⟨0, s, rfl, hfirst, hzero⟩]
    rfl
  case first =>
    rw [block_ofKept hfirst]
    exact hzero
  case blockAt =>
    intro b hpos hlt
    obtain ⟨k, s', rfl, hk⟩ := hblocks b hpos hlt
    rw [block_ofKept hk]
    exact blockAt_ofKept hkept.sorted hk
  case describes =>
    intro b hpos hlt
    obtain ⟨k, s', rfl, hk⟩ := hblocks b hpos hlt
    rw [block_ofKept hk]
    exact describes_layoutBlock hsegs (List.mem_of_getElem? hk)
  case reachable =>
    intro b hlt
    rcases Nat.eq_zero_or_pos b with rfl | hpos
    · exact .refl (by rwa [size_graph]) trivial
    · obtain ⟨k, s', rfl, hk⟩ := hblocks b hpos hlt
      obtain ⟨i, hi, hpath⟩ := mem_reachableSegments.1 (List.mem_of_getElem? hk)
      exact reaches_ofKept hclosed rfl hzero hpath (hk.trans hi.symm)
        (List.getElem?_eq_some_iff.1 hi).1

end BytecodeOpt.Ssa.Layout
