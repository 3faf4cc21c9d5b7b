import BytecodeOpt.Proofs.Allocation.Intervals
import Mathlib.Data.Option.Basic

/-!
# Assignments

What a scan of the intervals of a body assigns passes the check: every piece has a register, and no
register has two values at once.
-/

namespace BytecodeOpt.Allocation

open Ssa Interval Fallible

namespace Assignment

variable {ins maxRegisters : Nat} {body : Body} {a : Assignment}

theorem splitPosition_le (body : Body) (n : Numbering) (last : Nat) :
    splitPosition body n last ≤ last := by
  have hround : last - last % 2 ≤ last := Nat.sub_le _ _
  unfold splitPosition
  simp only
  split
  · rename_i b hop
    split
    · have hstart : n.blockStart b < last - last % 2 := by
        simp only [Numbering.opAt?, bind, Option.bind_eq_some_iff] at hop
        obtain ⟨c, hfind, -, -, heq⟩ := hop
        have hcond := List.find?_some hfind
        simp only [Bool.and_eq_true, decide_eq_true_eq] at hcond
        rw [← (Prod.mk.inj (Option.some.inj heq)).1]
        exact hcond.1
      exact Nat.le_trans (Nat.le_of_lt hstart) hround
    · exact hround
  · exact hround

theorem ofPrepared_eq_ok (h : ofPrepared body ins maxRegisters = .ok a) :
    ∃ scan, Scan.run
        { ins
          maxRegisters
          hints := hints body
          splitPosition? := fun last => some (splitPosition body (Numbering.ofBody body) last) }
        (bindArguments body
          (intervalsOf body (Numbering.ofBody body) (Liveness.ofBody body))).toList = .ok scan ∧
      a = ofScan body.method body.valueCount scan (Numbering.ofBody body)
        (Liveness.ofBody body) := by
  unfold ofPrepared at h
  obtain ⟨scan, hscan, h⟩ := bind_eq_ok.1 h
  exact ⟨scan, hscan, pure_eq_ok.1 h⟩

theorem sound_of_ofPrepared (h : ofPrepared body ins maxRegisters = .ok a) :
    ∃ scan, Scan.Sound (bindArguments body
        (intervalsOf body (Numbering.ofBody body) (Liveness.ofBody body))).toList
          maxRegisters scan ∧
      a = ofScan body.method body.valueCount scan (Numbering.ofBody body)
        (Liveness.ofBody body) := by
  obtain ⟨scan, hscan, ha⟩ := ofPrepared_eq_ok h
  have hbound := bound_bindArguments
    (unbound_intervalsOf body (Numbering.ofBody body) (Liveness.ofBody body))
  refine ⟨scan, (Scan.run_sound ?_ hbound.proper hscan).2, ha⟩
  intro last position hposition
  cases hposition
  exact splitPosition_le body _ last

theorem conflict?_eq_none {register : Reg} {pieces : List Interval}
    (h : pieces.Pairwise fun i j => i.Disjoint j) : conflict? register pieces = none := by
  induction pieces with
  | nil => rfl
  | cons i rest ih =>
    obtain ⟨hi, hrest⟩ := List.pairwise_cons.1 h
    rw [conflict?, Option.or_eq_none_iff]
    refine ⟨List.findSome?_eq_none_iff.2 fun j hj => ?_, ih hrest⟩
    rw [Option.map_eq_none_iff]
    exact firstIntersection?_eq_none (hi j hj)

theorem check_of_sound {given : List Interval} {maxRegisters : Nat} {scan : Scan} {n : Numbering}
    {l : Liveness} (h : Scan.Sound given maxRegisters scan)
    (hapart : given.Pairwise fun g h => g.isFixed = true → h.isFixed = true →
      g.register = h.register → g.Disjoint h) :
    (ofScan body.method body.valueCount scan n l).check = .ok () := by
  have hpieces : (ofScan body.method body.valueCount scan n l).pieces = scan.pieces.toList := rfl
  have hregister : scan.pieces.toList.find? (·.register.isNone) = none := by
    refine List.find?_eq_none.2 fun i hi => ?_
    obtain ⟨r, hr, -⟩ := h.register i hi
    simp [hr]
  unfold check
  rw [hpieces, hregister]
  change List.forM _ _ = _
  refine forM_eq_ok.2 fun register _ => ?_
  rw [conflict?_eq_none]
  · rfl
  · refine ((h.apart hapart).filter _).imp_of_mem ?_
    intro i j hi hj hdisjoint
    have hi := (List.mem_filter.1 hi).2
    have hj := (List.mem_filter.1 hj).2
    simp only [decide_eq_true_eq] at hi hj
    exact hdisjoint (hi.trans hj.symm)

theorem check_of_ofPrepared (hapart : ArgumentsApart body)
    (h : ofPrepared body ins maxRegisters = .ok a) : a.check = .ok () := by
  obtain ⟨scan, hsound, rfl⟩ := sound_of_ofPrepared h
  exact check_of_sound hsound ((bound_bindArguments (unbound_intervalsOf body _ _)).apart hapart)

end Assignment

end BytecodeOpt.Allocation
