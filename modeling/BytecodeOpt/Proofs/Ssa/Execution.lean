import BytecodeOpt.Proofs.Execution.Correspondence
import BytecodeOpt.Proofs.Ssa.Liveness
import BytecodeOpt.Proofs.Ssa.Renaming
import BytecodeOpt.Proofs.Ssa.Retargeting

/-!
# Running a body

What the effect of an operation has to do with its operands, and what holds of the values along a
run: where control leaves a block everything is there that the next one takes for granted.
-/

namespace BytecodeOpt

open Execution

variable {V W : Type} {host : Host V W} {args : Nat → V} {w w' : W} {m : Memory V}
  {seen : List (Observation V)}

namespace Op

theorem leaves_of_jump {op : Op} {t : BlockId}
    (h : op.effect.Runs host args w m seen w' (.jump t)) :
    op.isTerminator = true ∧ t ∈ op.targets := by
  rw [← leaves_effect, ← targets_effect]
  exact ⟨h.leaves_of_jump, h.mem_targets_of_jump⟩

theorem canThrow_of_raise {op : Op} {x : V} (h : op.effect.Runs host args w m seen w' (.raise x)) :
    op.canThrow = true := by
  rw [← canThrow_effect]
  exact Effect.Runs.canThrow_of_raise h

theorem corresponds_map (f : Operand → Operand) (g : BlockId → BlockId) (op : Op) :
    op.effect.Corresponds (fun u v => v = f u) (fun t t' => t' = g t)
      ((op.mapUses f).mapTargets g).effect := by
  have hall : ∀ (h : Nat → Nat) (xs : List Nat), List.Forall₂ (fun x y => y = h x) xs (xs.map h) :=
    fun _ _ =>
    List.forall₂_map_right_iff.2 (List.forall₂_same.2 fun _ _ => rfl)
  cases op with
  | argument dest index => exact .argument
  | move dest source => exact .copy rfl
  | moveException dest => exact .caught
  | line number => exact .line
  | goto target => exact .goto rfl
  | branch cond left right onTrue onFalse =>
    refine .branch rfl ?_ rfl rfl
    rw [Option.toList_map]
    exact hall f _
  | switch value keys ts default => exact .switch rfl (hall g ts) rfl
  | ret value =>
    refine .ret ?_
    rw [Option.toList_map]
    exact hall f _
  | _ => exact .act (hall f _)

theorem corresponds_mapUses (f : Operand → Operand) (op : Op) :
    op.effect.Corresponds (fun u v => u ∈ op.uses ∧ v = f u) Eq (op.mapUses f).effect := by
  have h := (op.corresponds_map f id).restrict
  rw [mapTargets_id, operands_effect] at h
  exact h.imp (fun _ _ huv => huv) fun _ _ ht => ht.2.symm

theorem corresponds_mapTargets (f : BlockId → BlockId) (op : Op) :
    op.effect.Corresponds Eq (fun t t' => t' = f t) (op.mapTargets f).effect := by
  have h := op.corresponds_map id f
  rw [op.mapUses_id id fun _ => rfl] at h
  exact h.imp (fun _ _ huv => huv.symm) fun _ _ ht => ht

theorem corresponds_self (op : Op) : op.effect.Corresponds Eq Eq op.effect := by
  have h := op.corresponds_mapTargets id
  rw [mapTargets_id] at h
  exact h.imp (fun _ _ huv => huv) fun _ _ ht => ht.symm

end Op

namespace Ssa

theorem Block.incoming?_of_mem {b : Block} {p : BlockId} {phi : Phi} (hp : p ∈ b.preds)
    (harity : phi.operands.length = b.preds.length) : ∃ v, b.incoming? p phi = some v := by
  obtain ⟨k, hk⟩ : ∃ k, b.predIndex? p = some k :=
    Option.isSome_iff_exists.1
      (List.findIdx?_isSome.trans (List.any_eq_true.2 ⟨p, hp, by simp⟩))
  obtain ⟨hlt, -, -⟩ := List.findIdx?_eq_some_iff_getElem.1 hk
  refine ⟨phi.operands[k], ?_⟩
  rw [incoming?, hk, Option.bind_some, List.getElem?_eq_getElem]

theorem Block.incoming?_map {b b' : Block} {p : BlockId} {phi : Phi} {o : Operand}
    (hpreds : b'.preds = b.preds) (ho : b.incoming? p phi = some o) (r : Operand → Operand) :
    b'.incoming? p { phi with operands := phi.operands.map r } = some (r o) := by
  obtain ⟨i, hi, hget⟩ := Option.bind_eq_some_iff.1 ho
  refine Option.bind_eq_some_iff.2 ⟨i, by rwa [predIndex?, hpreds], ?_⟩
  rw [List.getElem?_map, hget, Option.map_some]

namespace Body

variable {body : Body} {b t : BlockId} {k : Nat} {v : Operand}
  {inScope : BlockId → Operand → Prop} {op : Op}

/-! ## Phis -/

theorem picks_of_not_phi (h : v ∉ (body.block t).phiDests) (p : BlockId) :
    body.picks p t v = v := by
  unfold picks
  split
  · rename_i phi hfind
    refine absurd (List.mem_map.2 ⟨phi, List.mem_of_find?_eq_some hfind, ?_⟩) h
    simpa using List.find?_some hfind
  · rfl

theorem picks_of_phi (hnodup : (body.block t).phiDests.Nodup) {phi : Phi}
    (hphi : phi ∈ (body.block t).phis) {p : BlockId} {o : Operand}
    (ho : (body.block t).incoming? p phi = some o) : body.picks p t phi.dest = o := by
  unfold picks
  split
  · rename_i other hfind
    obtain rfl : other = phi :=
      List.inj_on_of_nodup_map hnodup (List.mem_of_find?_eq_some hfind) hphi
      (by simpa using List.find?_some hfind)
    rw [ho, Option.getD_some]
  · grind

/-! ## Values along a block -/

theorem Regular.not_available_dest (h : body.Regular) {exit : BlockId → BlockId → Nat}
    (hs : body.Scoped exit inScope) (hop : (body.block b).ops[k]? = some op)
    (hdest : op.dest? = some v) :
    ¬ body.Available inScope b k v := by
  have hb := lt_blockCount_of_getElem? hop
  have hmem : v ∈ (body.block b).opDests :=
    List.mem_filterMap.2 ⟨op, List.mem_of_getElem? hop, hdest⟩
  have hnodup := nodup_definedValues_block h.defined_nodup hb
  rw [Block.definedValues, List.nodup_append] at hnodup
  rintro (hscope | hphi | hbefore)
  · exact h.not_inScope hs hb (List.mem_append_right _ hmem) hscope
  · exact hnodup.2.2 v hphi v hmem rfl
  · obtain ⟨j, other, hj, hother, hdest'⟩ := Block.mem_destsBefore.1 hbefore
    have := Block.index_eq_of_dest hnodup.2.1 hop hdest hother hdest'
    omega

theorem effect?_routine (hop : (body.block b).ops[k]? = some op) :
    body.routine.effect? (b, k) = some op.effect := by
  change ((body.block b).ops[k]?).map Op.effect = _
  rw [hop, Option.map_some]

theorem not_step_of_getElem? (hop : (body.block b).ops[k]? = none)
    {a : Option (Config (BlockId × Nat) V W)} :
    ¬ body.routine.Step host args (some ⟨(b, k), w, m⟩) seen a := by
  intro hstep
  obtain ⟨e, he⟩ := hstep.exists_effect
  simp [routine, hop] at he

/-! ## Leaving a block -/

theorem leavesAt_of_jump (hop : (body.block b).ops[k]? = some op)
    (h : op.effect.Runs host args w m seen w' (.jump t)) :
    body.LeavesAt b k t :=
  ⟨op, hop, .inl (Op.leaves_of_jump h)⟩

theorem leavesAt_of_raise (hop : (body.block b).ops[k]? = some op) {x : V}
    (h : op.effect.Runs host args w m seen w' (.raise x)) {handler : Handler}
    (hh : handler ∈ (body.block b).handlers) :
    body.LeavesAt b k handler.target :=
  ⟨op, hop, .inr ⟨Op.canThrow_of_raise h, List.mem_map_of_mem hh⟩⟩

theorem Checked.edge_of_leavesAt (h : body.Checked) (hleaves : body.LeavesAt b k t) :
    t < body.blockCount ∧ b ∈ (body.block t).preds :=
  (h.block b hleaves.lt_blockCount).successors t (h.mem_successors_of_leavesAt hleaves)

end Body

end Ssa

end BytecodeOpt
