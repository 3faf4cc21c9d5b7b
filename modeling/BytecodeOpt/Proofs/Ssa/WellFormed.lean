import BytecodeOpt.Proofs.Graph.DepthFirst
import BytecodeOpt.Proofs.Ssa.Body
import BytecodeOpt.Ssa.Check

/-!
# Well-formed bodies

The facts about a body that register allocation builds on.  The scope of values is a certificate:
for each block the values that are there when it is entered.  Nothing is there at the entry, and
what is there at a block comes over every edge into it, so a value that is in scope was defined on
the way.
-/

namespace BytecodeOpt.Ssa

namespace Block

variable {b : Block} {v : Operand}

def destsBefore (b : Block) (i : Nat) : List Operand := (b.ops.take i).filterMap Op.dest?

theorem mem_destsBefore {i : Nat} :
    v ∈ b.destsBefore i ↔ ∃ j op, j < i ∧ b.ops[j]? = some op ∧ op.dest? = some v := by
  rw [destsBefore, List.mem_filterMap]
  constructor
  · rintro ⟨op, hop, hv⟩
    obtain ⟨j, hj⟩ := List.mem_iff_getElem?.1 hop
    rw [List.getElem?_take] at hj
    split at hj
    · exact ⟨j, op, ‹_›, hj, hv⟩
    · simp at hj
  · rintro ⟨j, op, hj, hop, hv⟩
    exact ⟨op, List.mem_iff_getElem?.2 ⟨j, by rw [List.getElem?_take, if_pos hj, hop]⟩, hv⟩

theorem destsBefore_mono {i j : Nat} (h : i ≤ j) (hv : v ∈ b.destsBefore i) :
    v ∈ b.destsBefore j := by
  obtain ⟨k, op, hk, hop⟩ := mem_destsBefore.1 hv
  exact mem_destsBefore.2 ⟨k, op, by omega, hop⟩

theorem destsBefore_length (b : Block) : b.destsBefore b.ops.length = b.opDests := by
  simp [destsBefore, opDests]

theorem mem_opDests_of_mem_destsBefore {i : Nat} (h : v ∈ b.destsBefore i) : v ∈ b.opDests := by
  obtain ⟨j, op, -, hop, hv⟩ := mem_destsBefore.1 h
  exact List.mem_filterMap.2 ⟨op, List.mem_of_getElem? hop, hv⟩

theorem index_eq_of_dest (h : b.opDests.Nodup) {i j : Nat} {op op' : Op} (hi : b.ops[i]? = some op)
    (hv : op.dest? = some v) (hj : b.ops[j]? = some op') (hv' : op'.dest? = some v) : i = j := by
  have hpair := List.pairwise_iff_getElem.1 (List.pairwise_filterMap.1 h)
  obtain ⟨hilt, rfl⟩ := List.getElem?_eq_some_iff.1 hi
  obtain ⟨hjlt, rfl⟩ := List.getElem?_eq_some_iff.1 hj
  rcases Nat.lt_trichotomy i j with hlt | heq | hlt
  · exact absurd rfl (hpair i j hilt hjlt hlt v hv v hv')
  · exact heq
  · exact absurd rfl (hpair j i hjlt hilt hlt v hv' v hv)

def Terminated (b : Block) : Prop :=
  ∃ before last, b.ops = before ++ [last] ∧ last.isTerminator = true ∧ ∀ op ∈ before,
    op.isTerminator = false

theorem Terminated.terminator? {before : List Op} {last : Op} (hops : b.ops = before ++ [last])
    (hlast : last.isTerminator = true) : b.terminator? = some last := by
  simp [Block.terminator?, hops, hlast]

theorem throwingIndex?_of_throwsAtEnd (h : Body.throwsAtEnd b = true) (hhandlers : b.handlers ≠ [])
    {k : Nat} {op : Op}
    (hop : b.ops[k]? = some op) (hthrow : op.canThrow = true) : b.throwingIndex? = some k := by
  have hempty : b.handlers.isEmpty = false := by simpa using hhandlers
  have hcount : b.ops.countP Op.canThrow = 1 := by
    simp only [Body.throwsAtEnd, hempty, Bool.false_or] at h
    split at h
    · grind
    · grind
  have hfilter : (b.ops.zipIdx.filter (·.1.canThrow)).length = 1 := by
    have hfst : b.ops.zipIdx.map Prod.fst = b.ops := by simp
    rw [← hcount, ← List.countP_eq_length_filter]
    conv_rhs => rw [← hfst]
    rw [List.countP_map]
    rfl
  obtain ⟨e, he⟩ := List.length_eq_one_iff.1 hfilter
  have hmem : (op, k) ∈ b.ops.zipIdx.filter (·.1.canThrow) :=
    List.mem_filter.2 ⟨List.mem_zipIdx_iff_getElem?.2 hop, hthrow⟩
  rw [he, List.mem_singleton] at hmem
  simp only [throwingIndex?, hempty, he, ← hmem, Bool.false_eq_true, if_false]
  rfl

theorem throwingIndex?_eq_some {k : Nat} (h : b.throwingIndex? = some k) :
    b.handlers ≠ [] ∧ ∃ op, b.ops[k]? = some op ∧ op.canThrow = true := by
  unfold throwingIndex? at h
  split at h
  · simp at h
  · grind

section Suffix

variable {b b' : Block} (quiet : List Bool) (hhandlers : b'.handlers.isEmpty = b.handlers.isEmpty)
  (hops : b.ops.map Op.canThrow = quiet ++ b'.ops.map Op.canThrow)
  (hquiet : b.handlers = [] ∨ ∀ throws ∈ quiet, throws = false)
include hhandlers hops hquiet

/-- Where a block throws depends on the operations behind a stretch that does not. -/
theorem throwingIndex?_suffix : b.throwingIndex? = b'.throwingIndex?.map (quiet.length + ·) := by
  have hindex : ∀ block : Block, block.throwingIndex? = if block.handlers.isEmpty then none else
      (((block.ops.map Op.canThrow).zipIdx.filter Prod.fst).getLast?).map Prod.snd :=
        fun block => by
    rw [List.zipIdx_map, List.filter_map, List.getLast?_map, Option.map_map]
    rfl
  rw [hindex, hindex, hhandlers]
  split
  next => rfl
  next hsome =>
    have hnone : quiet.zipIdx.filter Prod.fst = [] := List.filter_eq_nil_iff.2 fun e he => by
      rw [hquiet.resolve_left (by simpa using hsome) e.1 (List.fst_mem_of_mem_zipIdx he)]
      exact Bool.false_ne_true
    rw [hops, List.zipIdx_append, List.filter_append, hnone, List.nil_append, Nat.zero_add,
      List.zipIdx_eq_map_add,
      List.filter_map, List.getLast?_map, Option.map_map, Option.map_map]
    rfl

theorem throwsAtEnd_suffix : Body.throwsAtEnd b = Body.throwsAtEnd b' := by
  have hthrows : ∀ block : Block, Body.throwsAtEnd block = (block.handlers.isEmpty ||
      ((block.ops.map Op.canThrow).findIdx? id).all fun i =>
        (block.ops.map Op.canThrow).countP id == 1 &&
        (i + 1 == (block.ops.map Op.canThrow).length ||
          i + 2 == (block.ops.map Op.canThrow).length)) := fun block => by
    rw [Body.throwsAtEnd, List.findIdx?_map, List.countP_map, List.length_map, Function.id_comp]
    cases block.ops.findIdx? Op.canThrow <;> rfl
  rw [hthrows, hthrows, hhandlers]
  cases hempty : b.handlers.isEmpty with
  | true => rfl
  | false =>
    have hfalse := hquiet.resolve_left (by simpa using hempty)
    have hnone : quiet.findIdx? id = none := List.findIdx?_eq_none_iff.2 hfalse
    have hcount : quiet.countP id = 0 := List.countP_eq_zero.2 fun throws h => by
      simp [hfalse throws h]
    rw [hops, List.findIdx?_append, hnone, Option.none_or, List.countP_append, hcount, Nat.zero_add,
      List.length_append]
    cases (b'.ops.map Op.canThrow).findIdx? id with
    | none => rfl
    | some i =>
      have hlength : ∀ n m, (i + quiet.length + n == quiet.length + m) = (i + n == m) :=
        fun n m => by
        rw [Bool.eq_iff_iff, beq_iff_eq, beq_iff_eq]
        omega
      simp [hlength]

end Suffix

section Same

variable {b b' : Block} (hops : b.ops.map Op.canThrow = b'.ops.map Op.canThrow)
  (hhandlers : b'.handlers.isEmpty = b.handlers.isEmpty)
include hops hhandlers

theorem throwingIndex?_congr : b.throwingIndex? = b'.throwingIndex? := by
  simpa using throwingIndex?_suffix [] hhandlers hops (by simp)

theorem throwsAtEnd_congr : Body.throwsAtEnd b = Body.throwsAtEnd b' :=
  throwsAtEnd_suffix [] hhandlers hops (by simp)

end Same

end Block

namespace Body

theorem exitPosition_le_atEnd (body : Body) (p t : BlockId) :
    body.exitPosition p t ≤ (body.block p).ops.length := by
  unfold exitPosition
  simp only
  split
  · cases hk : (body.block p).throwingIndex? with
    | none => exact Nat.le_refl _
    | some k =>
      obtain ⟨-, op, hop, -⟩ := Block.throwingIndex?_eq_some hk
      exact Nat.le_of_lt (List.getElem?_eq_some_iff.1 hop).1
  · exact Nat.le_refl _

/-- A value is there before operation `i` of a block if it was at the entry or is defined by a phi
or an earlier operation. -/
def Available (body : Body) (inScope : BlockId → Operand → Prop) (b : BlockId) (i : Nat)
    (v : Operand) : Prop :=
  inScope b v ∨ v ∈ (body.block b).phiDests ∨ v ∈ (body.block b).destsBefore i

theorem Available.mono {body : Body} {inScope : BlockId → Operand → Prop} {b : BlockId} {i j : Nat}
    {v : Operand} (h : body.Available inScope b i v) (hij : i ≤ j) : body.Available inScope b j v :=
  h.imp_right (Or.imp_right (Block.destsBefore_mono hij))

/-- Everything read is in scope.  `exit` says at which operation control leaves a block for
another. -/
structure Scoped (body : Body) (exit : BlockId → BlockId → Nat)
    (inScope : BlockId → Operand → Prop) : Prop where
  entry : ∀ v, ¬ inScope 0 v
  edge : ∀ p < body.blockCount, ∀ t ∈ (body.block p).successors, ∀ v, inScope t v →
    body.Available inScope p (exit p t) v
  use : ∀ b < body.blockCount, ∀ (i : Nat) (op : Op), (body.block b).ops[i]? = some op →
    ∀ v ∈ op.uses,
    body.Available inScope b i v
  phi : ∀ b < body.blockCount, ∀ phi ∈ (body.block b).phis,
    ∀ e ∈ phi.operands.zip (body.block b).preds, body.Available inScope e.2 (exit e.2 b) e.1

def atEnd (body : Body) (source _target : BlockId) : Nat := (body.block source).ops.length

/-- Where control leaves later, no less is in scope. -/
theorem Scoped.mono {body : Body} {exit exit' : BlockId → BlockId → Nat}
    {inScope : BlockId → Operand → Prop} (h : body.Scoped exit inScope)
    (hle : ∀ p t, exit p t ≤ exit' p t) : body.Scoped exit' inScope where
  entry := h.entry
  edge := fun p hp t ht v hv => (h.edge p hp t ht v hv).mono (hle p t)
  use := h.use
  phi := fun b hb phi hphi e he => (h.phi b hb phi hphi e he).mono (hle e.2 b)

structure Regular (body : Body) : Prop where
  nonempty : 0 < body.blockCount
  entry_preds : (body.block 0).preds = []
  terminated : ∀ b < body.blockCount, (body.block b).Terminated
  successors_lt : ∀ b < body.blockCount, ∀ s ∈ (body.block b).successors, s < body.blockCount
  preds_nodup : ∀ b < body.blockCount, (body.block b).preds.Nodup
  mem_preds : ∀ b < body.blockCount, ∀ p, p ∈ (body.block b).preds ↔ p < body.blockCount ∧
    b ∈ (body.block p).successors
  reachable : ∀ b < body.blockCount, body.graph.Reaches 0 b
  arguments : ∀ b < body.blockCount, ∀ (i : Nat) (op : Op), (body.block b).ops[i]? = some op →
    op.isArgument = true → b = 0 ∧ ∀ j < i, ((body.block b).ops[j]?).any Op.isArgument = true
  caught : ∀ b < body.blockCount, ∀ (i : Nat) (op : Op), (body.block b).ops[i]? = some op →
    op.isMoveException = true → i = 0 ∧ body.isHandlerEntry b = true
  throws_at_end : ∀ b < body.blockCount, throwsAtEnd (body.block b) = true
  arity : ∀ b < body.blockCount, ∀ phi ∈ (body.block b).phis, phi.operands.length =
    (body.block b).preds.length
  defined_nodup : body.definedValues.Nodup
  defined_lt : ∀ v ∈ body.definedValues, v < body.valueCount
  in_scope : ∃ inScope, body.Scoped body.atEnd inScope

structure WellFormed (body : Body) : Prop extends Regular body where
  entry_phis : (body.block 0).phis = []

def Unmixed (body : Body) : Prop :=
  ∀ b < body.blockCount, ∀ t ∈ (body.block b).handlerTargets, t ∉ (body.block b).normalSuccessors

/-- Everything read is in scope even where an exception leaves a block early. -/
def Strict (body : Body) : Prop := ∃ inScope, body.Scoped body.exitPosition inScope

end Body

end BytecodeOpt.Ssa
