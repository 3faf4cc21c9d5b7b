import BytecodeOpt.Proofs.Ssa.Dominance
import BytecodeOpt.Proofs.Ssa.Paring

/-!
# Values under other names

Values go by new names.  A value that goes by another name is defined no more: its phi is gone.  The
body stays well-formed if what stands for the value is there wherever the value was, and it runs as
before.
-/

namespace BytecodeOpt

open Execution

namespace Ssa

def Block.rewrite (rename : Operand → Operand) (b : Block) : Block :=
  { b with
    phis := (b.phis.filter fun phi => rename phi.dest = phi.dest).map fun phi =>
      { phi with operands := phi.operands.map rename }
    ops := b.ops.map (Op.mapUses rename) }

def Body.rewrite (body : Body) (rename : Operand → Operand) :
    Body := body.mapBlocks (Block.rewrite rename)

variable {rename : Operand → Operand}

namespace Block

variable (rename) (b : Block)

theorem phiDests_rewrite :
    (b.rewrite rename).phiDests = b.phiDests.filter fun v => rename v = v := by
  simp only [phiDests, rewrite, List.map_map, List.filter_map]
  rfl

theorem destsBefore_rewrite (k : Nat) : (b.rewrite rename).destsBefore k = b.destsBefore k := by
  simp only [destsBefore, rewrite, ← List.map_take, List.filterMap_map, Function.comp_def,
    Op.dest?_mapUses]

theorem opDests_rewrite : (b.rewrite rename).opDests = b.opDests := by
  simp only [opDests, rewrite, List.filterMap_map, Function.comp_def, Op.dest?_mapUses]

theorem normalSuccessors_rewrite : (b.rewrite rename).normalSuccessors = b.normalSuccessors := by
  simp only [normalSuccessors, terminator?, rewrite, List.getLast?_map]
  cases b.ops.getLast? with
  | none => rfl
  | some op => cases hterm : op.isTerminator <;> simp [Option.filter_some, hterm, Op.successors]

theorem successors_rewrite : (b.rewrite rename).successors = b.successors := by
  rw [successors, normalSuccessors_rewrite]
  rfl

theorem isExceptionalSuccessor_rewrite (t : BlockId) :
    (b.rewrite rename).isExceptionalSuccessor t = b.isExceptionalSuccessor t := by
  rw [isExceptionalSuccessor, normalSuccessors_rewrite]
  rfl

theorem canThrow_rewrite : (b.rewrite rename).ops.map Op.canThrow = b.ops.map Op.canThrow := by
  simp [rewrite, Function.comp_def]

end Block

namespace Body

variable {body : Body} {inScope : BlockId → Operand → Prop} {exit : BlockId → BlockId → Nat}
  {b p t : BlockId} {k : Nat} {op : Op}

theorem block_rewrite (body : Body) (rename : Operand → Operand) (c : BlockId) :
    (body.rewrite rename).block c = (body.block c).rewrite rename :=
  block_mapBlocks body c rfl

@[simp] theorem blockCount_rewrite : (body.rewrite rename).blockCount = body.blockCount :=
  blockCount_mapBlocks body _

theorem getElem?_rewrite :
    ((body.rewrite rename).block b).ops[k]? = ((body.block b).ops[k]?).map (Op.mapUses rename) := by
  rw [block_rewrite, Block.rewrite, List.getElem?_map]

theorem exitPosition_rewrite : (body.rewrite rename).exitPosition p t = body.exitPosition p t := by
  simp only [exitPosition, block_rewrite, Block.isExceptionalSuccessor_rewrite,
    Block.throwingIndex?_congr (Block.canThrow_rewrite rename (body.block p)) rfl]
  simp only [Block.rewrite, List.length_map]

theorem atEnd_rewrite : (body.rewrite rename).atEnd = body.atEnd := by
  funext p t
  simp [atEnd, block_rewrite, Block.rewrite]

theorem definedValues_rewrite : (body.rewrite rename).definedValues.Sublist body.definedValues := by
  have hids : (body.rewrite rename).blockIds = body.blockIds := by
    simp [blockIds, rewrite, mapBlocks]
  rw [definedValues, definedValues, hids]
  refine List.Sublist.flatMap_right _ fun c _ => ?_
  rw [block_rewrite, Block.definedValues, Block.definedValues, Block.phiDests_rewrite,
    Block.opDests_rewrite]
  exact List.filter_sublist.append (.refl _)

theorem picks_rewrite {phi : Phi} {o : Operand} (hnodup : (body.block t).phiDests.Nodup)
    (hphi : phi ∈ (body.block t).phis)
    (hname : rename phi.dest = phi.dest) (ho : (body.block t).incoming? p phi = some o) :
    (body.rewrite rename).picks p t phi.dest = rename o := by
  have hnodup' : ((body.rewrite rename).block t).phiDests.Nodup := by
    rw [block_rewrite, Block.phiDests_rewrite]
    exact hnodup.filter _
  have hphi' : { phi with operands := phi.operands.map rename } ∈
      ((body.rewrite rename).block t).phis := by
    rw [block_rewrite]
    exact List.mem_map_of_mem (List.mem_filter.2 ⟨hphi, by simp [hname]⟩)
  exact picks_of_phi hnodup' hphi' (Block.incoming?_map (by rw [block_rewrite]; rfl) ho rename)

theorem unmixed_rewrite (hunmixed : body.Unmixed) : (body.rewrite rename).Unmixed := by
  intro b hb t ht
  rw [blockCount_rewrite] at hb
  rw [block_rewrite] at ht ⊢
  rw [Block.normalSuccessors_rewrite]
  exact hunmixed b hb t ht

structure Rewritable (body : Body) (rename : Operand → Operand) : Prop where
  regular : body.Regular
  entry : ∀ v ∈ (body.block 0).phiDests, rename v = v
  op : ∀ b < body.blockCount, ∀ v ∈ (body.block b).opDests, rename v = v
  phi : ∀ b < body.blockCount, ∀ phi ∈ (body.block b).phis, rename phi.dest ≠ phi.dest →
    ∀ o ∈ phi.operands,
    rename o = rename phi.dest

def scopeAfter (body : Body) (rename : Operand → Operand)
    (inScope : BlockId → Operand → Prop) (b : BlockId) (v : Operand) : Prop :=
  ∃ u, rename u = v ∧ (inScope b u ∨ (u ∈ (body.block b).phiDests ∧ rename u ≠ u))

namespace Rewritable

variable (h : body.Rewritable rename)
include h

/-! ## Scope -/

theorem available (hb : b < body.blockCount) {u : Operand} (hu : body.Available inScope b k u) :
    (body.rewrite rename).Available (body.scopeAfter rename inScope) b k (rename u) := by
  rcases hu with hu | hu | hu
  · exact .inl ⟨u, rfl, .inl hu⟩
  · by_cases hname : rename u = u
    · refine .inr (.inl ?_)
      rw [block_rewrite, Block.phiDests_rewrite, hname]
      exact List.mem_filter.2 ⟨hu, by simp [hname]⟩
    · exact .inl ⟨u, rfl, .inr ⟨hu, hname⟩⟩
  · rw [h.op b hb u (Block.mem_opDests_of_mem_destsBefore hu)]
    exact .inr (.inr (by rwa [block_rewrite, Block.destsBefore_rewrite]))

theorem available_phi (hphis : ∀ b < body.blockCount, ∀ phi ∈ (body.block b).phis,
      ∀ e ∈ phi.operands.zip (body.block b).preds, body.Available inScope e.2 (exit e.2 b) e.1) :
    ∀ b < (body.rewrite rename).blockCount, ∀ phi ∈ ((body.rewrite rename).block b).phis,
      ∀ e ∈ phi.operands.zip ((body.rewrite rename).block b).preds,
        (body.rewrite rename).Available (body.scopeAfter rename inScope) e.2 (exit e.2 b) e.1 := by
  intro b hb phi hphi e he
  rw [blockCount_rewrite] at hb
  rw [block_rewrite] at hphi he
  obtain ⟨old, hold, rfl⟩ := List.mem_map.1 hphi
  rw [List.zip_map_left] at he
  obtain ⟨e', he', rfl⟩ := List.mem_map.1 he
  have hpred := ((h.regular.mem_preds b hb e'.2).1 (List.of_mem_zip he').2).1
  exact h.available hpred (hphis b hb old (List.mem_filter.1 hold).1 e' he')

theorem scoped_rewrite (hs : body.Scoped exit inScope) :
    (body.rewrite rename).Scoped exit (body.scopeAfter rename inScope) := by
  have hwf := h.regular
  constructor
  case entry =>
    rintro v ⟨u, -, hu | ⟨hu, hname⟩⟩
    · exact hs.entry u hu
    · exact hname (h.entry u hu)
  case edge =>
    intro p hp t ht v hv
    rw [blockCount_rewrite] at hp
    rw [block_rewrite, Block.successors_rewrite] at ht
    obtain ⟨u, rfl, hu | ⟨hu, hname⟩⟩ := hv
    · exact h.available hp (hs.edge p hp t ht u hu)
    · -- a phi of the target that is gone: its operand over this edge has the same name
      have hlt := hwf.successors_lt p hp t ht
      obtain ⟨phi, hphi, rfl⟩ := List.mem_map.1 hu
      obtain ⟨o, ho⟩ := Block.incoming?_of_mem ((hwf.mem_preds t hlt p).2 ⟨hp, ht⟩)
        (hwf.arity t hlt phi hphi)
      have hzip := Block.mem_zip_of_incoming? ho
      rw [← h.phi t hlt phi hphi hname o (List.of_mem_zip hzip).1]
      exact h.available hp (hs.phi t hlt phi hphi _ hzip)
  case use =>
    intro b hb i op' hop' v hv
    rw [blockCount_rewrite] at hb
    rw [getElem?_rewrite] at hop'
    obtain ⟨op, hop, rfl⟩ := Option.map_eq_some_iff.1 hop'
    rw [Op.uses_mapUses] at hv
    obtain ⟨u, hu, rfl⟩ := List.mem_map.1 hv
    exact h.available hb (hs.use b hb i op hop u hu)
  case phi => exact h.available_phi hs.phi

theorem regular_rewrite : (body.rewrite rename).Regular := by
  have hwf := h.regular
  have hblocks : ∀ b, body.Reached b → body.CheckedBlock b := fun b hb =>
    hwf.checkedBlock hb.lt_blockCount
  have hpared : Pared body (body.rewrite rename) (fun _ op => some (op.mapUses rename)) ∧
      (body.rewrite rename).graph = body.graph := by
    refine pared_of_edges hblocks blockCount_rewrite rfl (fun b => ?_) (fun b => ?_)
      (fun b => ?_) (fun b => ?_)
      (fun b phi hphi => ?_) ?_ (fun _ _ _ _ => rfl) fun b => ?_
    · rw [block_rewrite, List.filterMap_eq_map']
      rfl
    · rw [block_rewrite, Block.rewrite]
    · rw [block_rewrite, Block.rewrite]
    · rw [block_rewrite, Block.phiDests_rewrite]
      exact List.filter_sublist
    · rw [block_rewrite] at hphi
      obtain ⟨old, hold, rfl⟩ := List.mem_map.1 hphi
      exact ⟨old, (List.mem_filter.1 hold).1, List.length_map _⟩
    · rintro b op - _ ⟨⟩
      constructor <;> simp [Op.dest?_mapUses]
    · rw [block_rewrite, Block.normalSuccessors_rewrite]
  obtain ⟨hpared, hgraph⟩ := hpared
  have hpreds := hwf.entry_preds
  obtain ⟨inScope, hscope⟩ := hwf.in_scope
  refine regular_of_checkedBlock (by simpa using hwf.nonempty)
    (by rwa [block_rewrite, Block.rewrite]) (fun b hb => hpared.checkedBlock hblocks hpreds ?_)
    (hwf.defined_nodup.sublist definedValues_rewrite)
    (fun v hv => hwf.defined_lt v (definedValues_rewrite.subset hv))
    (atEnd_rewrite ▸ h.scoped_rewrite hscope)
  rw [Reached, hgraph]
  exact hwf.reachable b (by simpa using hb)

theorem wellFormed_rewrite (hphis : (body.block 0).phis = []) :
    (body.rewrite rename).WellFormed where
  toRegular := h.regular_rewrite
  entry_phis := by simp [block_rewrite, Block.rewrite, hphis]

theorem checked_rewrite (hchecked : body.Checked) : (body.rewrite rename).Checked := by
  have hscoped := h.scoped_rewrite (hchecked.scoped_comesIn h.regular.nonempty)
  refine h.regular_rewrite.checked_of_scoped hscoped ?_
  simp only [exitPosition_rewrite]
  exact h.available_phi fun b hb phi hphi e he => (hchecked.phi b hb phi hphi e he).available

theorem strict_rewrite (hstrict : body.Strict) : (body.rewrite rename).Strict := by
  obtain ⟨inScope, hscope⟩ := hstrict
  exact ⟨_, (h.scoped_rewrite hscope).mono fun p t => exitPosition_rewrite.ge⟩

end Rewritable

/-! ## Running -/

variable {V W : Type} {host : Host V W} {args : Nat → V} {m m' : Memory V}

/-- Values that keep their names hold the same in both, and what a block takes for granted holds the
same under its new name. -/
structure Same (body : Body) (rename : Operand → Operand)
    (inScope : BlockId → Operand → Prop) (b : BlockId) (m m' : Memory V) : Prop where
  inside : b < body.blockCount
  caught : m.caught = m'.caught
  kept : ∀ u, rename u = u → m.store u = m'.store u
  store : ∀ u, inScope b u ∨ u ∈ (body.block b).phiDests → m.store u = m'.store (rename u)

def Parallel (body : Body) (rename : Operand → Operand)
    (inScope : BlockId → Operand → Prop) (_ : Nat)
    (a a' : Option (Config (BlockId × Nat) V W)) : Prop :=
  (a = none ∧ a' = none) ∨ ∃ b k w m m', Same body rename inScope b m m' ∧ a = some ⟨(b, k), w, m⟩ ∧
    a' = some ⟨(b, k), w, m'⟩

namespace Rewritable

variable (h : body.Rewritable rename) (hs : body.Scoped body.atEnd inScope)
  (hsame : Same body rename inScope b m m')
include h hsame

theorem same_read {u : Operand} (hu : body.Available inScope b k u) :
    m.store u = m'.store (rename u) := by
  rcases hu with hu | hu | hu
  · exact hsame.store u (.inl hu)
  · exact hsame.store u (.inr hu)
  · have hname := h.op b hsame.inside u (Block.mem_opDests_of_mem_destsBefore hu)
    rw [hname, hsame.kept u hname]

include hs

theorem same_next (hop : (body.block b).ops[k]? = some op) (value : Option V) :
    Same body rename inScope b (m.after op.effect value)
      (m'.after (op.mapUses rename).effect value) := by
  have hdest : (op.mapUses rename).effect.dest? = op.effect.dest? := by simp [Op.dest?_mapUses]
  refine ⟨hsame.inside, by simpa using hsame.caught, fun u hname => ?_, fun u hu => ?_⟩
  · exact Memory.store_after_eq hdest (hsame.kept u hname) (.inl rfl) value
  · refine Memory.store_after_eq hdest (hsame.store u hu) ?_ value
    by_cases hname : rename u = u
    · exact .inl hname.symm
    · -- what stands for the value is there, so it is not defined here
      refine .inr ⟨fun hd => hname (h.op b hsame.inside u ?_), fun hd => ?_⟩
      · exact List.mem_filterMap.2 ⟨op, List.mem_of_getElem? hop, by simpa using hd⟩
      · have hop' : ((body.rewrite rename).block b).ops[k]? = some (op.mapUses rename) := by
          rw [getElem?_rewrite, hop, Option.map_some]
        exact h.regular_rewrite.not_available_dest (h.scoped_rewrite hs) hop'
          (by simpa [Op.dest?_mapUses] using hd)
          (h.available hsame.inside (hu.imp_right .inl))

theorem same_enter (hleaves : body.LeavesAt b k t) :
    Same body rename inScope t { m with store := fun v => m.store (body.picks b t v) }
      { m' with store := fun v => m'.store ((body.rewrite rename).picks b t v) } := by
  have hwf := h.regular
  have hedge := (hwf.checkedBlock hsame.inside).mem_successors_of_leavesAt hleaves
  have ht := hwf.successors_lt b hsame.inside t hedge
  have hpred := (hwf.mem_preds t ht b).2 ⟨hsame.inside, hedge⟩
  have hnodup := nodup_phiDests_block hwf.defined_nodup ht
  -- what a phi picks holds the same under its new name
  have hpicks : ∀ phi ∈ (body.block t).phis, ∃ o ∈ phi.operands,
      (body.block t).incoming? b phi = some o ∧
      body.picks b t phi.dest = o ∧ m.store o = m'.store (rename o) := by
    intro phi hphi
    obtain ⟨o, ho⟩ := Block.incoming?_of_mem hpred (hwf.arity t ht phi hphi)
    have hzip := Block.mem_zip_of_incoming? ho
    exact ⟨o, (List.of_mem_zip hzip).1, ho, picks_of_phi hnodup hphi ho,
      h.same_read hsame (hs.phi t ht phi hphi _ hzip)⟩
  have hgone : ∀ {v}, inScope t v ∨ (v ∈ (body.block t).phiDests ∧ rename v ≠ v) →
      (body.rewrite rename).picks b t (rename v) = rename v := fun hv =>
    picks_of_not_phi (fun hphi => h.regular_rewrite.not_inScope (h.scoped_rewrite hs)
      (by simpa using ht)
      (List.mem_append_left _ hphi) ⟨_, rfl, hv⟩) b
  refine ⟨ht, hsame.caught, fun u hname => ?_, fun u hu => ?_⟩ <;> simp only
  · by_cases hphi : u ∈ (body.block t).phiDests
    · obtain ⟨phi, hphi', rfl⟩ := List.mem_map.1 hphi
      obtain ⟨o, -, ho, hpick, hstore⟩ := hpicks phi hphi'
      rw [hpick, hstore, picks_rewrite hnodup hphi' hname ho]
    · rw [picks_of_not_phi hphi, picks_of_not_phi, hsame.kept u hname]
      rw [block_rewrite, Block.phiDests_rewrite]
      exact fun hmem => hphi (List.mem_filter.1 hmem).1
  · by_cases hphi : u ∈ (body.block t).phiDests
    · obtain ⟨phi, hphi', rfl⟩ := List.mem_map.1 hphi
      obtain ⟨o, hmem, ho, hpick, hstore⟩ := hpicks phi hphi'
      rw [hpick, hstore]
      by_cases hname : rename phi.dest = phi.dest
      · rw [hname, picks_rewrite hnodup hphi' hname ho]
      · -- the phi is gone, and its operands go by its name
        rw [hgone (.inr ⟨hphi, hname⟩), h.phi t ht phi hphi' hname o hmem]
    · have hscope := hu.resolve_right hphi
      rw [picks_of_not_phi hphi, hgone (.inl hscope)]
      exact h.same_read hsame (hs.edge b hsame.inside t hedge u hscope)

/-- The same effect leads both to places where they still hold the same. -/
theorem rejoins (hop : (body.block b).ops[k]? = some op) (w : W) :
    Rejoins body.routine (body.rewrite rename).routine host args (Parallel body rename inScope) Eq
      (b, k) (b, k) op.effect
      (op.mapUses rename).effect w m m' := by
  refine ⟨fun _ w' value _ =>
    ⟨0, .inr ⟨b, k + 1, w', _, _, h.same_next hs hsame hop value, rfl, rfl⟩⟩,
    fun _ w' t t' hrun _ ht => ?_, fun _ w' x hrun => ?_, 0, .inl ⟨rfl, rfl⟩⟩
  · subst ht
    exact ⟨0, .inr ⟨t, 0, w', _, _, h.same_enter hs hsame (leavesAt_of_jump hop hrun), rfl, rfl⟩⟩
  · have hcaught : Same body rename inScope b { m with caught := x } { m' with caught := x } :=
      ⟨hsame.inside, rfl, hsame.kept, hsame.store⟩
    have hhandlers : (body.rewrite rename).routine.handlers (b, k) = (body.block b).handlers := by
      simp only [routine, block_rewrite]
      rfl
    rw [hhandlers]
    exact List.forall₂_same.2 fun handler hh => ⟨rfl, 0, .inr ⟨handler.target, 0, w', _, _,
      h.same_enter hs hcaught (leavesAt_of_raise hop hrun hh), rfl, rfl⟩⟩

theorem same_operands (hop : (body.block b).ops[k]? = some op) :
    ∀ u v, u ∈ op.uses ∧ v = rename u → m.store u = m'.store v := by
  rintro u _ ⟨hu, rfl⟩
  exact h.same_read hsame (hs.use b hsame.inside k op hop u hu)

omit hsame

theorem lockstep :
    Lockstep (body.routine.Step host args) ((body.rewrite rename).routine.Step host args)
    (Parallel (W := W) body rename inScope) := by
  rintro n a a' (⟨rfl, rfl⟩ | ⟨b, k, w, m, m', hsame, rfl, rfl⟩)
  · refine .inr (.inr ⟨fun _ _ hstep => ?_, fun _ _ hstep => ?_⟩) <;> cases hstep
  have hget : ((body.rewrite rename).block b).ops[k]? = _ := getElem?_rewrite
  cases hop : (body.block b).ops[k]? with
  | none =>
    rw [hop, Option.map_none] at hget
    exact .inr (.inr ⟨fun _ _ hstep => absurd hstep (not_step_of_getElem? hop),
      fun _ _ hstep => absurd hstep (not_step_of_getElem? hget)⟩)
  | some op =>
    rw [hop, Option.map_some] at hget
    exact .inr (.inr (matched_both (effect?_routine hop) (effect?_routine hget)
      (op.corresponds_mapUses rename)
      (h.same_operands hs hsame hop) hsame.caught (h.rejoins hs hsame hop w)))

theorem parallel_start (w : W) (m : Memory V) :
    Parallel body rename inScope 0 (some ⟨(0, 0), w, m⟩) (some ⟨(0, 0), w, m⟩) := by
  refine .inr ⟨0, 0, w, m, m, ⟨h.regular.nonempty, rfl, fun _ _ => rfl, ?_⟩, rfl, rfl⟩
  rintro u (hscope | hphi)
  · exact absurd hscope (hs.entry u)
  · rw [h.entry u hphi]

omit hs

theorem sameBehaviour_rewrite (host : Host V W) (args : Nat → V) (w : W) (m : Memory V) :
    SameBehaviour (body.routine.Step host args) ((body.rewrite rename).routine.Step host args)
      (some ⟨(0, 0), w, m⟩) (some ⟨(0, 0), w, m⟩) := by
  obtain ⟨inScope, hs⟩ := h.regular.in_scope
  exact (h.lockstep hs).sameBehaviour (h.parallel_start hs w m)

end Rewritable

end Body

end Ssa

end BytecodeOpt
