import BytecodeOpt.Proofs.Allocation.Assignment
import BytecodeOpt.Proofs.Allocation.Coverage

/-!
# Where values are

An assignment knows a register for a value at every position where the value needs one.
-/

namespace BytecodeOpt.Allocation

open Ssa Interval Fallible

theorem ranges_bindArguments (body : Body) (intervals : Intervals) (v : Operand) :
    (Intervals.of (Assignment.bindArguments body intervals) v).ranges =
    (intervals.of v).ranges := by
  rw [bindArguments_eq]
  refine List.foldlRecOn (motive := fun is : Intervals => (is.of v).ranges =
    (intervals.of v).ranges) _ _ rfl
    fun _ h e _ => .trans ?_ h
  unfold bindOp
  split
  · rw [of_modify]
    split <;> rfl
  · rfl

namespace Assignment

section

variable {method : MethodId} {count : Nat} {scan : Scan} {n : Numbering}
  {l : Liveness} {v : Operand}

theorem size_foldl_modify (pieces : List Interval) (table : Array (List Interval)) :
    (pieces.foldl (fun table i => table.modify i.value (· ++ [i])) table).size = table.size := by
  induction pieces generalizing table with
  | nil => rfl
  | cons j pieces ih => rw [List.foldl_cons, ih, Array.size_modify]

theorem getD_foldl_modify (pieces : List Interval) {table : Array (List Interval)}
    (hv : v < table.size) :
    (pieces.foldl (fun table i => table.modify i.value (· ++ [i])) table).getD v [] =
      table.getD v [] ++ pieces.filter (·.value = v) := by
  induction pieces generalizing table with
  | nil => exact (List.append_nil _).symm
  | cons j pieces ih =>
    rw [List.foldl_cons, ih (by simpa using hv), Table.getD_modify]
    by_cases hj : j.value = v
    · grind
    · grind

theorem size_byValue (method : MethodId) (count : Nat) (scan : Scan) (n : Numbering)
    (l : Liveness) :
    (ofScan method count scan n l).byValue.size = count := by
  unfold ofScan
  rw [Array.size_map, ← Array.foldl_toList, size_foldl_modify, Array.size_replicate]

theorem piecesOf_perm (hv : v < count) : ((ofScan method count scan n l).piecesOf v).Perm
    (scan.pieces.toList.filter (·.value = v)) := by
  have hsize : v < (Array.replicate count ([] : List Interval)).size := by simpa using hv
  unfold piecesOf ofScan
  rw [Table.getD_map, ← Array.foldl_toList, dif_pos (by rwa [size_foldl_modify]),
    ← Table.getD_of_lt,
    getD_foldl_modify _ hsize, Table.getD_replicate, if_pos hv]
  exact List.mergeSort_perm _ _

end

end Assignment

end BytecodeOpt.Allocation
