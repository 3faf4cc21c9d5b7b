import BytecodeOpt.Proofs.Ssa.WellFormed

/-!
# Blocks that lead elsewhere

Only a terminator has targets, so sending it elsewhere can be told operation by operation.
-/

namespace BytecodeOpt

namespace Op

variable (f g : BlockId → BlockId) (op : Op)

@[simp] theorem dest?_mapTargets : (op.mapTargets f).dest? = op.dest? := by
  cases op <;> rfl

@[simp] theorem uses_mapTargets : (op.mapTargets f).uses = op.uses := by
  cases op <;> rfl

@[simp] theorem isTerminator_mapTargets : (op.mapTargets f).isTerminator = op.isTerminator := by
  cases op <;> rfl

@[simp] theorem isArgument_mapTargets : (op.mapTargets f).isArgument = op.isArgument := by
  cases op <;> rfl

@[simp] theorem isMoveException_mapTargets :
    (op.mapTargets f).isMoveException = op.isMoveException := by
  cases op <;> rfl

@[simp] theorem canThrow_mapTargets : (op.mapTargets f).canThrow = op.canThrow := by
  cases op <;> rfl

theorem targets_mapTargets : (op.mapTargets f).targets = op.targets.map f := by
  cases op <;> simp [mapTargets, targets]

theorem mapTargets_mapTargets : (op.mapTargets f).mapTargets g = op.mapTargets (g ∘ f) := by
  cases op <;> simp [mapTargets]

variable {f g op}

theorem mapTargets_congr (h : ∀ t ∈ op.targets, f t = g t) : op.mapTargets f = op.mapTargets g := by
  cases op <;> simp_all [mapTargets, targets]

theorem mapTargets_id : op.mapTargets id = op := by
  cases op <;> simp [mapTargets]

theorem targets_of_not_isTerminator (h : op.isTerminator = false) : op.targets = [] := by
  cases op <;> simp_all [targets, isTerminator]

theorem mapTargets_of_not_isTerminator (h : op.isTerminator = false) : op.mapTargets f = op := by
  cases op <;> simp_all [mapTargets, isTerminator]

end Op

theorem eraseDups_map {f : BlockId → BlockId} {xs : List BlockId}
    (h : ∀ s ∈ xs, ∀ t ∈ xs, f s = f t → s = t) : (xs.map f).eraseDups = xs.eraseDups.map f := by
  induction hlength : xs.length using Nat.strongRecOn generalizing xs with
  | _ length ih =>
    cases xs with
    | nil => rfl
    | cons x xs =>
      have hfilter : (xs.map f).filter (fun y => !y == f x) =
          (xs.filter fun y => !y == x).map f := by
        rw [List.filter_map]
        congr 1
        refine List.filter_congr fun y hy => ?_
        have hiff : f y = f x ↔ y = x :=
          ⟨h y (List.mem_cons_of_mem x hy) x List.mem_cons_self, congrArg f⟩
        simp [Bool.beq_eq_decide_eq, hiff]
      have hshorter : (xs.filter fun y => !y == x).length < length := by grind
      rw [List.map_cons, List.eraseDups_cons, List.eraseDups_cons, List.map_cons, hfilter,
        ih _ hshorter (fun s hs t ht => h s (List.mem_cons_of_mem x (List.mem_of_mem_filter hs)) t
          (List.mem_cons_of_mem x (List.mem_of_mem_filter ht))) rfl]

namespace Ssa

namespace Block

variable {t : BlockId} {b : Block}

theorem mem_successors : t ∈ b.successors ↔ t ∈ b.normalSuccessors ∨ t ∈ b.handlerTargets := by
  rw [successors, List.mem_eraseDups, List.mem_append]

theorem nodup_normalSuccessors (b : Block) : b.normalSuccessors.Nodup := by
  unfold normalSuccessors
  cases b.terminator? with
  | none => exact List.nodup_nil
  | some op => exact nodup_eraseDups op.targets

theorem eq_of_fields {b b' : Block} (hphis : b.phis = b'.phis) (hops : b.ops = b'.ops)
    (hpreds : b.preds = b'.preds) (hhandlers : b.handlers = b'.handlers) : b = b' := by
  cases b
  cases b'
  simp_all

theorem Terminated.ops_mapTerminator (h : b.Terminated) (f : BlockId → BlockId) :
    (b.mapTerminator (Op.mapTargets f)).ops = b.ops.map (Op.mapTargets f) := by
  obtain ⟨before, last, hops, hlast, hbefore⟩ := h
  have hmap : before.map (Op.mapTargets f) = before :=
    (List.map_congr_left fun op hop => Op.mapTargets_of_not_isTerminator (hbefore op hop)).trans
      (List.map_id' before)
  rw [mapTerminator, Terminated.terminator? hops hlast]
  simp [hops, hmap]

theorem Terminated.mem_normalSuccessors (h : b.Terminated) {op : Op} (hop : op ∈ b.ops)
    (ht : t ∈ op.targets) :
    t ∈ b.normalSuccessors := by
  obtain ⟨before, last, hops, hlast, hbefore⟩ := h
  rw [hops, List.mem_append, List.mem_singleton] at hop
  rcases hop with hop | rfl
  · rw [Op.targets_of_not_isTerminator (hbefore op hop)] at ht
    cases ht
  · simpa [normalSuccessors, Terminated.terminator? hops hlast, Op.successors,
      List.mem_eraseDups] using ht

/-- A block without the first `k` operations of another that leads elsewhere. -/
structure Redirected (k : Nat) (f : BlockId → BlockId) (b b' : Block) : Prop where
  terminated : b.Terminated
  dropped : ∀ op ∈ b.ops.take k, op.isTerminator = false ∧ (b.handlers = [] ∨ op.canThrow = false)
  ops : b'.ops = (b.ops.drop k).map (Op.mapTargets f)
  handlers : b'.handlers = b.handlers.map fun h => { h with target := f h.target }
  apart : ∀ s ∈ b.normalSuccessors ++ b.handlerTargets, ∀ t ∈ b.normalSuccessors ++
    b.handlerTargets, f s = f t → s = t

namespace Redirected

variable {k : Nat} {f : BlockId → BlockId} {b b' : Block}

variable (h : Redirected k f b b')
include h

theorem getElem?_ops (i : Nat) : b'.ops[i]? = b.ops[k + i]?.map (Op.mapTargets f) := by
  rw [h.ops, List.getElem?_map, List.getElem?_drop]

theorem exists_terminator :
    ∃ before last, b.ops.drop k = before ++ [last] ∧ last.isTerminator = true ∧
      b.terminator? = some last := by
  obtain ⟨before, last, hops, hlast, -⟩ := h.terminated
  have hk : k ≤ before.length := by
    by_contra hlt
    have hmem : last ∈ b.ops.take k := by
      rw [List.take_of_length_le (by rw [hops]; simp; omega), hops]
      simp
    rw [(h.dropped last hmem).1] at hlast
    cases hlast
  refine ⟨before.drop k, last, ?_, hlast, Terminated.terminator? hops hlast⟩
  rw [hops, List.drop_append_of_le_length hk]

theorem le_length : k < b.ops.length := by
  obtain ⟨before, last, hdrop, -⟩ := h.exists_terminator
  have := congrArg List.length hdrop
  simp at this
  omega

theorem length_ops : b'.ops.length + k = b.ops.length := by
  have := h.le_length
  rw [h.ops, List.length_map, List.length_drop]
  omega

theorem terminator? : b'.terminator? = b.terminator?.map (Op.mapTargets f) := by
  obtain ⟨before, last, hdrop, hlast, hterm⟩ := h.exists_terminator
  rw [hterm, Block.terminator?, h.ops, hdrop]
  simp [hlast]

theorem handlerTargets : b'.handlerTargets = b.handlerTargets.map f := by
  simp [Block.handlerTargets, h.handlers]

theorem normalSuccessors : b'.normalSuccessors = b.normalSuccessors.map f := by
  have hapart := h.apart
  rw [Block.normalSuccessors, h.terminator?]
  rw [Block.normalSuccessors] at hapart ⊢
  cases hterm : b.terminator? with
  | none => rfl
  | some last =>
    rw [hterm] at hapart
    simp only [Option.map_some, Option.getD_some, Op.successors, Op.targets_mapTargets]
    refine eraseDups_map fun s hs t ht => hapart s ?_ t ?_
    · simpa [Op.successors, List.mem_eraseDups] using .inl hs
    · simpa [Op.successors, List.mem_eraseDups] using .inl ht

theorem successors : b'.successors = b.successors.map f := by
  rw [Block.successors, h.normalSuccessors, h.handlerTargets, ← List.map_append,
    eraseDups_map h.apart]
  rfl

theorem isExceptionalSuccessor (ht : t ∈ b.successors) :
    b'.isExceptionalSuccessor (f t) = b.isExceptionalSuccessor t := by
  rw [Block.successors, List.mem_eraseDups] at ht
  have hmem : ∀ xs : List BlockId, xs ⊆ b.normalSuccessors ++ b.handlerTargets →
      (f t ∈ xs.map f ↔ t ∈ xs) := by
    intro xs hsub
    refine ⟨fun hin => ?_, List.mem_map_of_mem⟩
    obtain ⟨s, hs, heq⟩ := List.mem_map.1 hin
    rwa [← h.apart s (hsub hs) t ht heq]
  simp only [Block.isExceptionalSuccessor, isHandlerTarget, h.handlerTargets, h.normalSuccessors,
    List.contains_eq_mem, hmem _ (List.subset_append_left _ _),
      hmem _ (List.subset_append_right _ _)]

theorem handlers_isEmpty : b'.handlers.isEmpty = b.handlers.isEmpty := by
  simp [h.handlers]

theorem canThrow_ops :
    b.ops.map Op.canThrow = (b.ops.take k).map Op.canThrow ++ b'.ops.map Op.canThrow := by
  have hthrow : Op.canThrow ∘ Op.mapTargets f = Op.canThrow := funext (Op.canThrow_mapTargets f)
  rw [h.ops, List.map_map, hthrow, ← List.map_append, List.take_append_drop]

theorem quiet : b.handlers = [] ∨ ∀ throws ∈ (b.ops.take k).map Op.canThrow, throws = false := by
  refine or_iff_not_imp_left.2 fun hhandlers throws hmem => ?_
  obtain ⟨op, hop, rfl⟩ := List.mem_map.1 hmem
  exact (h.dropped op hop).2.resolve_left hhandlers

theorem throwingIndex? : b.throwingIndex? = b'.throwingIndex?.map (k + ·) := by
  have hlength : ((b.ops.take k).map Op.canThrow).length = k := by
    rw [List.length_map, List.length_take]
    exact Nat.min_eq_left (Nat.le_of_lt h.le_length)
  rw [throwingIndex?_suffix _ h.handlers_isEmpty h.canThrow_ops h.quiet, hlength]

theorem throwsAtEnd : Body.throwsAtEnd b = Body.throwsAtEnd b' :=
  throwsAtEnd_suffix _ h.handlers_isEmpty h.canThrow_ops h.quiet

theorem destsBefore_add (i : Nat) :
    b.destsBefore (k + i) = b.destsBefore k ++ b'.destsBefore i := by
  have hdest : Op.dest? ∘ Op.mapTargets f = Op.dest? := by
    funext op
    simp
  rw [destsBefore, List.take_add, List.filterMap_append, destsBefore, destsBefore, h.ops,
    ← List.map_take, List.filterMap_map, hdest]

theorem opDests : b.opDests = b.destsBefore k ++ b'.opDests := by
  have hadd := h.destsBefore_add b'.ops.length
  rwa [Nat.add_comm, h.length_ops, destsBefore_length, destsBefore_length] at hadd

end Redirected

end Block

/-- Control leaves a block for another where it left before. -/
theorem Body.exitPosition_redirected {body body' : Body} {k : Nat} {f : BlockId → BlockId}
    {p p' t : BlockId} (h : Block.Redirected k f (body.block p) (body'.block p'))
    (ht : t ∈ (body.block p).successors) :
    k + body'.exitPosition p' (f t) = body.exitPosition p t := by
  have hlength := h.length_ops
  simp only [exitPosition, h.isExceptionalSuccessor ht, h.throwingIndex?]
  split
  · cases (body'.block p').throwingIndex? with
    | none => exact (Nat.add_comm _ _).trans hlength
    | some i => rfl
  · exact (Nat.add_comm _ _).trans hlength

end Ssa

end BytecodeOpt
