import BytecodeOpt.Proofs.Allocation.Interference
import BytecodeOpt.Proofs.Allocation.Preparation

/-!
# Reproducible allocation

The values of a lifted body keep one register each: none of their intervals is cut.  So there are no
moves inside blocks, and the order in which values are looked at does not show in the code.
-/

namespace BytecodeOpt.Allocation

open Ssa Interval Fallible

/-! ## Whole intervals -/

namespace Assignment

variable {body : Body} {ins maxRegisters : Nat} {a : Assignment}

theorem length_byValue_le (hwf : body.WellFormed) (h : ofPrepared body ins maxRegisters = .ok a) :
    ∀ pieces ∈ a.byValue.toList, pieces.length ≤ 1 := by
  obtain ⟨scan, hscan, rfl⟩ := ofPrepared_eq_ok h
  have hproper := (bound_bindArguments (unbound_liveIntervals body)).proper
  have hwhole := Scan.whole_of_run (fun last position hposition => by
    cases hposition
    exact splitPosition_le body _ last) hproper (settled_bindArguments hwf) hscan
  have hvalues : (scan.pieces.toList.map Interval.value).Nodup := by
    have heq := congrArg (List.map Prod.fst) hwhole.pieces
    rw [List.map_map, List.map_map] at heq
    refine heq ▸ hproper.values.sublist (List.Sublist.map _ List.filter_sublist)
  intro pieces hpieces
  obtain ⟨v, hv, rfl⟩ := Array.mem_iff_getElem.1 (Array.mem_toList_iff.1 hpieces)
  have hperm :
      ((ofScan body.method body.valueCount scan (Numbering.ofBody body)
      (Liveness.ofBody body)).piecesOf v).Perm
      (scan.pieces.toList.filter (·.value = v)) := piecesOf_perm (by rwa [size_byValue] at hv)
  rw [piecesOf, Table.getD_of_lt hv] at hperm
  rw [hperm.length_eq]
  -- two pieces of the value would be two equal entries among the values
  have hsame : (scan.pieces.toList.filter (·.value = v)).map Interval.value =
      List.replicate (scan.pieces.toList.filter (·.value = v)).length v :=
    List.eq_replicate_iff.2 ⟨List.length_map _, fun w hw => by
      obtain ⟨i, hi, rfl⟩ := List.mem_map.1 hw
      simpa using (List.mem_filter.1 hi).2⟩
  exact List.nodup_replicate.1 (hsame ▸ hvalues.sublist (List.Sublist.map _ List.filter_sublist))

end Assignment

/-! ## The order of values -/

/-- The moves at the splits, found by going through the pieces of the values in some order. -/
def splitMovesVisiting (n : Numbering) (visited : List (List Interval)) : List (Nat × Move) :=
  visited.flatMap fun pieces =>
    (pieces.zip (pieces.drop 1)).filterMap fun pair => pieceMove? n pair.1 pair.2

/-- Resolves as `resolve` does, but goes through the values in some order. -/
def resolveVisiting (visited : List (List Interval)) (body : Body) (a : Assignment)
    (ins maxRegisters : Nat) : Except Fault RegisterCode := do
  let edges ← allEdgeMoves body a
  let allocated ← allocateBlocks body a (splitMovesVisiting a.numbering visited) edges
      a.numbering.order
    { base := max a.registers ins }
  let registers := Reg.ofNat (allocated.2.base + allocated.2.used)
  if maxRegisters < registers then
    throw (.pressure maxRegisters)
  return { method := body.method, blocks := allocated.1, registers, ins }

theorem resolve_eq_resolveVisiting (body : Body) (a : Assignment) (ins maxRegisters : Nat) :
    resolve body a ins maxRegisters = resolveVisiting a.byValue.toList body a ins maxRegisters :=
  rfl

theorem splitMovesVisiting_eq_nil {n : Numbering} {visited : List (List Interval)}
    (h : ∀ pieces ∈ visited, pieces.length ≤ 1) : splitMovesVisiting n visited = [] := by
  refine List.flatMap_eq_nil_iff.2 fun pieces hpieces => ?_
  rw [List.drop_eq_nil_of_le (h pieces hpieces), List.zip_nil_right, List.filterMap_nil]

/-! ## Lifted bodies -/

theorem assign_eq_ok {body prepared : Body} {ins maxRegisters : Nat} {a : Assignment}
    (h : assign body ins maxRegisters = (prepared, .ok a)) :
    prepared = (insertLandingPads body).1.splitCriticalEdges ∧
      Assignment.ofPrepared prepared ins maxRegisters = .ok a := by
  cases hready : checkAllocatable body with
  | error fault =>
    simp only [assign, prepare, hready] at h
    cases (Prod.mk.inj h).2
  | ok _ =>
    rw [assign_of_allocatable hready] at h
    obtain ⟨hbody, ha⟩ := Prod.mk.inj h
    exact ⟨hbody.symm, hbody ▸ ha⟩

structure Reproducible (body prepared : Body) (ins maxRegisters : Nat) (a : Assignment) : Prop where
  whole : ∀ v, (a.piecesOf v).length ≤ 1
  later : ∀ v, ∀ piece ∈ (a.piecesOf v).drop 1,
    (∃ b < prepared.blockCount, piece.start = a.numbering.blockStart b) ∨
      ∀ other ∈ a.piecesOf v, other.covers (piece.start - 1) = false
  unmoved : ∀ position scratch, emitSplits a (splitMoves a) position scratch = ([], scratch)
  /-- Whichever way the values are gone through, the code comes out the same. -/
  unordered : ∀ visited, visited.Perm a.byValue.toList → ∀ checks,
    (allocate body ins maxRegisters checks).code = resolveVisiting visited prepared a
      ins maxRegisters

/-- Whatever registers are assigned to a lifted body, its intervals are not cut, so that moves stand
at the ends of blocks only and the code does not depend on the order of values. -/
theorem lifted_allocation_reproducible (m : Method) (body prepared : Body) (ins maxRegisters : Nat)
    (a : Assignment) (hlift : lift? m = .ok (some body))
    (hassign : assign body ins maxRegisters = (prepared, .ok a)) :
    Reproducible body prepared ins maxRegisters a := by
  have hlifted := lifted_of_lift? hlift
  obtain ⟨hprepared, ha⟩ := assign_eq_ok hassign
  have hwf := wellFormed_prepared hlifted.wellFormed hlifted.strict hlifted.unmixed
  rw [← hprepared] at hwf
  have hshort := Assignment.length_byValue_le hwf ha
  have hwhole : ∀ v, (a.piecesOf v).length ≤ 1 := by
    intro v
    by_cases hv : v < a.byValue.size
    · rw [Assignment.piecesOf, Table.getD_of_lt hv]
      exact hshort _ (Array.mem_toList_iff.2 (Array.getElem_mem hv))
    · rw [Assignment.piecesOf, Table.getD_of_le (Nat.le_of_not_lt hv)]
      exact Nat.zero_le 1
  have hnone : splitMoves a = [] := splitMovesVisiting_eq_nil hshort
  refine ⟨hwhole, fun v piece hpiece => ?_, fun position scratch => ?_,
    fun visited hperm checks => ?_⟩
  · grind
  · rw [hnone]
    rfl
  · have hsame : splitMovesVisiting a.numbering visited = splitMovesVisiting a.numbering
        a.byValue.toList := by
      rw [splitMovesVisiting_eq_nil fun pieces hpieces => hshort pieces (hperm.mem_iff.1 hpieces)]
      exact (splitMovesVisiting_eq_nil hshort).symm
    rw [code_of_assign hlifted hassign, resolve_eq_resolveVisiting, resolveVisiting,
      resolveVisiting, hsame]

theorem lifted_allocation_reproducible_loop :
    ∃ body prepared a, lift? loopMethod = .ok (some body) ∧ assign body 1 3 = (prepared, .ok a) ∧
      Reproducible body prepared 1 3 a := by
  obtain ⟨found, hlift, hfound⟩ := exists_of_succeeds (x := lift? loopMethod)
    (p := fun found => found.any fun body => succeeds (fun _ => true) (assign body 1 3).2)
    (by decide +kernel)
  obtain ⟨body, rfl, hassigned⟩ := (Option.any_eq_true _ _).1 hfound
  obtain ⟨a, ha, -⟩ := exists_of_succeeds hassigned
  have hassign : assign body 1 3 = ((assign body 1 3).1, .ok a) := Prod.ext rfl ha
  exact ⟨body, _, a, hlift, hassign, lifted_allocation_reproducible _ _ _ _ _ _ hlift hassign⟩

end BytecodeOpt.Allocation
