import Mathlib
import BytecodeOpt.Pass.References

/-!
# Operations with pending renames applied

Renaming gives every operation its own new form and leaves all else as it is.
-/

namespace BytecodeOpt

open Ssa

variable {lens : Lens} {body : Body} {b : BlockId}

namespace Op

theorem renameReferences_of_isIdentity (h : lens.isIdentity) (op : Op) :
    op.renameReferences lens = op := by
  have hnil := List.isEmpty_iff.1 h
  cases op with
  | const dest value => cases value <;> simp [renameReferences, Lens.lookupType, hnil]
  | _ => simp [renameReferences, Lens.lookupType, Lens.lookupMethod, Lens.lookupField, hnil]

end Op

namespace Pass

theorem Change.block_ofOps (f : Nat → Op → Option (Op × List Event)) : (ofOps body f).body.block b =
    { body.block b with ops := (body.block b).ops.mapIdx fun i op =>
      ((f i op).map Prod.fst).getD op } := by
  simp only [ofOps, Body.block, Array.getD_eq_getD_getElem?, Array.getElem?_zipWith,
    Array.getElem?_map]
  cases body.blocks[b]? with
  | none => rfl
  | some block => simp [List.mapIdx_eq_zipIdx_map]

namespace References

theorem block_run (method : MethodId) : (run method lens body).body.block b =
    { body.block b with ops := (body.block b).ops.map (Op.renameReferences lens) } := by
  rw [run]
  split
  · rename_i hidentity
    have hsame : Op.renameReferences lens = id :=
      funext (Op.renameReferences_of_isIdentity hidentity)
    simp [hsame, Change.unchanged]
  · rw [Change.block_ofOps]
    have hstep (i : Nat) (op : Op) : ((if op.renameReferences lens = op then none
        else some (op.renameReferences lens, events method lens i op)).map Prod.fst).getD op =
          op.renameReferences lens := by
      split <;> simp_all
    simp only [hstep]
    congr 1
    exact List.ext_getElem (by simp) fun i _ _ => by simp

end References

end Pass

end BytecodeOpt
