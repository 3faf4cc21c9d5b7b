import BytecodeOpt.Proofs.Table
import BytecodeOpt.Ssa.Edit
import Mathlib.Data.List.Nodup
import Mathlib.Data.List.Pairwise

/-!
# Blocks of a changed body

What each block is after an edit, and what the body defines then.
-/

namespace BytecodeOpt.Ssa

theorem nodup_eraseDups (xs : List Nat) : xs.eraseDups.Nodup := by
  induction hlength : xs.length using Nat.strongRecOn generalizing xs with
  | _ length ih =>
    cases xs with
    | nil => exact List.nodup_nil
    | cons x xs =>
      have hshorter : (xs.filter fun y => !y == x).length < length := by grind
      rw [List.eraseDups_cons, List.nodup_cons]
      refine ⟨fun hmem => ?_, ih _ hshorter _ rfl⟩
      simp [List.mem_eraseDups] at hmem

namespace Body

variable (body : Body) (b c : BlockId)

theorem block_of_le {body : Body} {b : BlockId} (h : body.blockCount ≤ b) : body.block b = {} :=
  Table.getD_of_le h

section

variable {body : Body} {b : BlockId} {i : Nat} {op : Op} {phi : Phi}

theorem lt_blockCount_of_mem_ops (h : op ∈ (body.block b).ops) : b < body.blockCount := by
  by_contra hle
  rw [block_of_le (Nat.le_of_not_lt hle)] at h
  simp at h

theorem lt_blockCount_of_getElem? (h : (body.block b).ops[i]? = some op) : b < body.blockCount :=
  lt_blockCount_of_mem_ops (List.mem_of_getElem? h)

theorem lt_blockCount_of_mem_phis (h : phi ∈ (body.block b).phis) : b < body.blockCount := by
  by_contra hle
  rw [block_of_le (Nat.le_of_not_lt hle)] at h
  simp at h

end

theorem mem_blockIds {body : Body} {b : BlockId} : b ∈ body.blockIds ↔ b < body.blockCount :=
  List.mem_range

theorem mem_ops {body : Body} {b : BlockId} {op : Op} :
    (b, op) ∈ body.ops ↔ b < body.blockCount ∧ op ∈ (body.block b).ops := by
  simp [ops, mem_blockIds, Prod.ext_iff]

theorem blocks_toList : body.blocks.toList = body.blockIds.map body.block := by
  refine List.ext_getElem (by simp [blockIds]) fun i hi _ => ?_
  have hlt : i < body.blocks.size := by simpa using hi
  simp [blockIds, block, Array.getD_eq_getD_getElem?, hlt]

theorem block_modifyBlock (f : Block → Block) :
    (body.modifyBlock b f).block c = if b = c ∧ c < body.blockCount then f (body.block c)
      else body.block c :=
  Table.getD_modify body.blocks f {} b c

@[simp] theorem blockCount_modifyBlock (f : Block → Block) :
    (body.modifyBlock b f).blockCount = body.blockCount := by
  simp [modifyBlock, blockCount]

@[simp] theorem valueCount_modifyBlock (f : Block → Block) :
    (body.modifyBlock b f).valueCount = body.valueCount := rfl

@[simp] theorem blockIds_modifyBlock (f : Block → Block) :
    (body.modifyBlock b f).blockIds = body.blockIds := by
  simp [modifyBlock, blockIds]

theorem block_addBlock (block : Block) :
    (body.addBlock block).block c = if c = body.blockCount then block else body.block c :=
  Table.getD_push body.blocks block {} c

@[simp] theorem blockCount_addBlock (block : Block) :
    (body.addBlock block).blockCount = body.blockCount + 1 := by
  simp [addBlock, blockCount]

@[simp] theorem valueCount_addBlock (block : Block) :
    (body.addBlock block).valueCount = body.valueCount := rfl

@[simp] theorem block_addValue (type : ValueType) :
    (body.addValue type).block c = body.block c := rfl

@[simp] theorem blockCount_addValue (type : ValueType) :
    (body.addValue type).blockCount = body.blockCount := rfl

@[simp] theorem valueCount_addValue (type : ValueType) :
    (body.addValue type).valueCount = body.valueCount + 1 := by
  simp [addValue, valueCount]

@[simp] theorem block_setValueType (v : Operand) (type : ValueType) :
    (body.setValueType v type).block c = body.block c := rfl

@[simp] theorem blockCount_setValueType (v : Operand) (type : ValueType) :
    (body.setValueType v type).blockCount = body.blockCount := rfl

@[simp] theorem valueCount_setValueType (v : Operand) (type : ValueType) :
    (body.setValueType v type).valueCount = body.valueCount := by
  simp [setValueType, valueCount]

@[simp] theorem blockCount_mapBlocks (f : Block → Block) :
    (body.mapBlocks f).blockCount = body.blockCount := by
  simp [mapBlocks, blockCount]

theorem block_mapBlocks {f : Block → Block} (hf : f {} = {}) :
    (body.mapBlocks f).block c = f (body.block c) := by
  by_cases h : c < body.blocks.size <;> simp [block, mapBlocks, Array.getD_eq_getD_getElem?, h, hf]

/-! ## The graph -/

theorem size_graph : body.graph.size = body.blockCount := by
  simp [graph, Digraph.size, blockCount]

theorem successors_graph : body.graph.successors b = (body.block b).successors := by
  simp only [graph, Digraph.successors, Table.getD_map, block]
  split <;> rfl

theorem graph_congr {body body' : Body} (hcount : body'.blockCount = body.blockCount)
    (h : ∀ b < body.blockCount, (body'.block b).successors = (body.block b).successors) :
    body'.graph = body.graph := by
  have hsize : body'.blocks.size = body.blocks.size := hcount
  simp only [graph, Digraph.mk.injEq]
  refine Array.ext (by simpa using hsize) fun i hi hi' => ?_
  simp only [Array.size_map] at hi hi'
  have hblock := h i hi'
  rw [block, block, Table.getD_of_lt hi, Table.getD_of_lt hi'] at hblock
  simpa using hblock

/-! ## What a body reads -/

theorem getD_foldl_modify {v : Operand} (xs : List Operand) (counts : Array Nat)
    (hv : v < counts.size) :
    (xs.foldl (fun counts v => counts.modify v (· + 1)) counts).getD v 0 = counts.getD v 0 +
      xs.count v := by
  induction xs generalizing counts with
  | nil => simp
  | cons x xs ih =>
    rw [List.foldl_cons, ih _ (by simpa using hv), List.count_cons]
    by_cases hx : x = v
    · subst hx
      simp [Array.getD_eq_getD_getElem?, Array.getElem_modify, hv]
      omega
    · simp [Array.getD_eq_getD_getElem?, Array.getElem?_modify, hx]

theorem getD_useCounts {body : Body} {v : Operand} (hv : v < body.valueCount) :
    body.useCounts.getD v 0 = body.uses.count v := by
  rw [useCounts, getD_foldl_modify _ _ (by simpa using hv)]
  simp [Array.getD_eq_getD_getElem?, hv]

end Body

namespace Block

def phiDests (b : Block) : List Operand := b.phis.map Phi.dest

def opDests (b : Block) : List Operand := b.ops.filterMap Op.dest?

def definedValues (b : Block) : List Operand := b.phiDests ++ b.opDests

end Block

namespace Body

def definedValues (body : Body) : List Operand :=
  body.blockIds.flatMap fun b => (body.block b).definedValues

theorem mem_definedValues {body : Body} {v : Operand} :
    v ∈ body.definedValues ↔ ∃ b < body.blockCount, v ∈ (body.block b).definedValues := by
  simp [definedValues, mem_blockIds]

theorem nodup_definedValues_block {body : Body} (h : body.definedValues.Nodup) {b : BlockId}
    (hb : b < body.blockCount) : (body.block b).definedValues.Nodup :=
  (List.nodup_flatMap.1 h).1 b (mem_blockIds.2 hb)

theorem nodup_phiDests_block {body : Body} (h : body.definedValues.Nodup) {b : BlockId}
    (hb : b < body.blockCount) : (body.block b).phiDests.Nodup :=
  (List.nodup_append.1 (nodup_definedValues_block h hb)).1

theorem eq_of_mem_definedValues {body : Body} (h : body.definedValues.Nodup) {b c : BlockId}
    (hb : b < body.blockCount) (hc : c < body.blockCount) {v : Operand}
    (hvb : v ∈ (body.block b).definedValues) (hvc : v ∈ (body.block c).definedValues) : b = c := by
  by_contra hne
  have hsymm : Std.Symm (Function.onFun List.Disjoint fun b => (body.block b).definedValues) :=
    ⟨fun _ _ h _ hc hb => h hb hc⟩
  exact (List.nodup_flatMap.1 h).2.forall (mem_blockIds.2 hb) (mem_blockIds.2 hc) hne hvb hvc

theorem not_opDest_of_phi {body : Body} (h : body.definedValues.Nodup) {b c : BlockId}
    (hb : b < body.blockCount)
    (hc : c < body.blockCount) {v : Operand} (hphi : v ∈ (body.block b).phiDests) :
    v ∉ (body.block c).opDests := by
  intro hop
  obtain rfl := eq_of_mem_definedValues h hb hc (List.mem_append_left _ hphi)
    (List.mem_append_right _ hop)
  exact (List.nodup_append.1 (nodup_definedValues_block h hb)).2.2 v hphi v hop rfl

theorem flatMap_perm_of_mem {α β : Type} {f f' : α → List β} {added : List β} {xs : List α} {a : α}
    (hnodup : xs.Nodup) (ha : a ∈ xs) (hother : ∀ x, x ≠ a → f' x = f x)
    (hself : (f' a).Perm (added ++ f a)) : (xs.flatMap f').Perm (added ++ xs.flatMap f) := by
  induction xs with
  | nil => simp at ha
  | cons x xs ih =>
    obtain ⟨hx, hxs⟩ := List.nodup_cons.1 hnodup
    rw [List.flatMap_cons, List.flatMap_cons]
    by_cases hxa : x = a
    · subst hxa
      have hrest : xs.flatMap f' = xs.flatMap f := by
        refine List.flatMap_congr fun y hy => hother y ?_
        rintro rfl
        exact hx hy
      rw [hrest, ← List.append_assoc]
      exact hself.append_right _
    · have ha' : a ∈ xs := (List.mem_cons.1 ha).resolve_left (Ne.symm hxa)
      rw [hother x hxa]
      exact ((ih hxs ha').append_left _).trans
        (by rw [← List.append_assoc, ← List.append_assoc]
            exact List.perm_append_comm.append_right _)

theorem definedValues_modifyBlock_perm {body : Body} {b : BlockId} (hb : b < body.blockCount)
    {f : Block → Block} {added : List Operand}
    (h : (f (body.block b)).definedValues.Perm (added ++ (body.block b).definedValues)) :
    (body.modifyBlock b f).definedValues.Perm (added ++ body.definedValues) := by
  unfold definedValues
  rw [blockIds_modifyBlock]
  refine flatMap_perm_of_mem (a := b) List.nodup_range (mem_blockIds.2 hb) ?_ ?_
  · intro c hc
    rw [block_modifyBlock, if_neg (fun h => hc h.1.symm)]
  · rw [block_modifyBlock, if_pos ⟨rfl, hb⟩]
    exact h

theorem definedValues_congr {body body' : Body} (hcount : body'.blockCount = body.blockCount)
    (h : ∀ b < body.blockCount, (body'.block b).definedValues = (body.block b).definedValues) :
    body'.definedValues = body.definedValues := by
  unfold definedValues blockIds
  rw [show body'.blocks.size = body.blocks.size from hcount]
  exact List.flatMap_congr fun b hb => h b (List.mem_range.1 hb)

end Body

end BytecodeOpt.Ssa
