import BytecodeOpt.Proofs.Pass.DeadCode.Phis
import BytecodeOpt.Proofs.Ssa.Compaction

/-!
# Joining blocks

A block takes over its only successor, if that has no other predecessor.  Nothing is left of the
successor but its number, until blocks that cannot be reached are dropped.  What can be reached
stays sound and runs as before, one jump shorter.
-/

namespace BytecodeOpt

open Execution

namespace Pass.DeadCode

open Ssa Ssa.Body

variable {body : Body} {b next c t : BlockId} {v : Operand} {i k : Nat} {op : Op} {phi : Phi}

/-! ## Blocks that can be joined -/

structure Mergeable (body : Body) (b next : BlockId) : Prop where
  ends : (body.block b).ops = (body.block b).ops.dropLast ++ [.goto next]
  ne : next ≠ b
  ne_zero : next ≠ 0
  handlers : (body.block b).handlers = []
  preds : (body.block next).preds = [b]
  starts : ∀ op, (body.block next).ops[0]? = some op → op.isMoveException = false
  quiet : (body.block next).handlers = [] ∨ ∀ op ∈ (body.block b).ops, op.canThrow = false

theorem mergeable?_eq_some : mergeable? body b = some next ↔ Mergeable body b next := by
  have hterminator : (body.block b).terminator? = some (.goto next) ↔
      (body.block b).ops = (body.block b).ops.dropLast ++ [.goto next] := by
    rw [Block.terminator?, Option.filter_eq_some_iff]
    constructor
    · rintro ⟨hlast, -⟩
      exact (List.dropLast_append_getLast? _ hlast).symm
    · intro hends
      exact ⟨by rw [hends]; simp, rfl⟩
  have hcond : (next ≠ b && next ≠ 0 && (body.block b).handlers.isEmpty &&
      (body.block next).preds = [b]
      && !(body.block next).ops.head?.any Op.isMoveException
      && ((body.block next).handlers.isEmpty || !(body.block b).ops.any Op.canThrow)) = true ↔
      next ≠ b ∧ next ≠ 0 ∧ (body.block b).handlers = [] ∧ (body.block next).preds = [b] ∧
      (∀ op, (body.block next).ops[0]? = some op → op.isMoveException = false) ∧
      ((body.block next).handlers = [] ∨ ∀ op ∈ (body.block b).ops, op.canThrow = false) := by
    have hstarts : (body.block next).ops.head?.any Op.isMoveException = false ↔
        ∀ op, (body.block next).ops[0]? = some op → op.isMoveException = false := by
      rw [List.head?_eq_getElem?]
      cases (body.block next).ops[0]? <;> simp
    simp only [Bool.and_eq_true, Bool.not_eq_true', hstarts, decide_eq_true_eq, List.isEmpty_iff,
      Bool.or_eq_true,
      List.any_eq_false, Bool.not_eq_true, and_assoc]
  simp only [mergeable?]
  constructor
  · intro h
    split at h
    next other hgoto =>
      split at h
      next hif =>
        obtain rfl := Option.some.inj h
        obtain ⟨hne, hzero, hhandlers, hpreds, hstarts, hquiet⟩ := hcond.1 hif
        exact ⟨hterminator.1 hgoto, hne, hzero, hhandlers, hpreds, hstarts, hquiet⟩
      next => cases h
    next => cases h
  · rintro ⟨hends, hne, hzero, hhandlers, hpreds, hstarts, hquiet⟩
    rw [hterminator.2 hends]
    exact if_pos (hcond.2 ⟨hne, hzero, hhandlers, hpreds, hstarts, hquiet⟩)

/-- Bodies between two joins: what cannot be reached is empty. -/
structure Whole (body : Body) : Prop where
  sound : body.Sound
  whole : ∀ c, body.Reached c ∨ body.block c = {}
  choices : ∀ c, ∀ phi ∈ (body.block c).phis, onlyChoice? phi = none

namespace Whole

variable (h : Whole body)
include h

theorem reached_of_ops (hop : op ∈ (body.block c).ops) : body.Reached c := by
  refine (h.whole c).resolve_right fun hempty => ?_
  simp [hempty] at hop

theorem reached_of_phis (hphi : phi ∈ (body.block c).phis) : body.Reached c := by
  refine (h.whole c).resolve_right fun hempty => ?_
  simp [hempty] at hphi

theorem reached_of_preds {p : BlockId} (hp : p ∈ (body.block c).preds) : body.Reached c := by
  refine (h.whole c).resolve_right fun hempty => ?_
  simp [hempty] at hp

theorem reached_of_edge (ht : t ∈ (body.block c).successors) : body.Reached c := by
  refine (h.whole c).resolve_right fun hempty => ?_
  simp [hempty, Block.successors, Block.normalSuccessors, Block.terminator?,
    Block.handlerTargets] at ht

theorem reached_of_definedAt {site : DefSite} (hsite : body.DefinedAt v site) :
    body.Reached site.block := by
  cases site with
  | phi c =>
    obtain ⟨phi, hphi, -⟩ := List.mem_map.1 hsite.2
    exact h.reached_of_phis hphi
  | op c i =>
    obtain ⟨-, op, hop, -⟩ := hsite
    exact h.reached_of_ops (List.mem_of_getElem? hop)

end Whole

/-! ## The only successor -/

namespace Mergeable

variable (h : Mergeable body b next) (hw : Whole body)
include h

theorem goto_mem : .goto next ∈ (body.block b).ops := by
  rw [h.ends]
  simp

theorem getElem?_goto : (body.block b).ops[(body.block b).ops.length - 1]? = some (.goto next) := by
  conv_lhs => rw [h.ends]
  simp

theorem successors : (body.block b).successors = [next] := by
  have hterminator : (body.block b).terminator? = some (.goto next) :=
    Block.Terminated.terminator? h.ends rfl
  simp [Block.successors, Block.normalSuccessors, hterminator, Op.successors, Op.targets,
    Block.handlerTargets, h.handlers,
    List.eraseDups_cons]

include hw

theorem reached : body.Reached b := hw.reached_of_ops h.goto_mem

theorem reached_next : body.Reached next := hw.reached_of_preds (h.preds ▸ List.mem_singleton.2 rfl)

/-- No other block has an edge to it. -/
theorem ne_of_edge (ht : t ∈ (body.block c).successors) (hc : c ≠ b) : t ≠ next := by
  rintro rfl
  have hpred := ((hw.sound.block c (hw.reached_of_edge ht)).successors t ht).2
  rw [h.preds, List.mem_singleton] at hpred
  exact hc hpred

theorem not_mem_preds (hc : c ≠ next) : b ∉ (body.block c).preds := by
  intro hpred
  have hedge := ((hw.sound.block c (hw.reached_of_preds hpred)).preds_edge b hpred).2
  rw [h.successors, List.mem_singleton] at hedge
  exact hc hedge

theorem dominates : body.dominators.dominates b next = true := by
  rw [Body.dominators, Dominators.dominates_iff (h.reached_next hw)]
  intro hpath
  cases hpath with
  | refl => exact h.ne_zero rfl
  | @snoc x _ hpath hmem _ _ =>
    rw [successors_graph] at hmem
    exact h.ne_of_edge hw hmem hpath.target_allowed rfl

theorem not_dominates : body.dominators.dominates next b = false := by
  rw [← Bool.not_eq_true]
  exact fun hdom =>
    h.ne (Dominators.dominates_antisymm (h.reached_next hw) (h.reached hw) hdom (h.dominates hw))

/-- A phi in it would pick one value, or be defined by itself. -/
theorem phis_eq_nil : (body.block next).phis = [] := by
  rw [List.eq_nil_iff_forall_not_mem]
  intro phi hphi
  have hnext := h.reached_next hw
  have harity := (hw.sound.block next hnext).arity phi hphi
  rw [h.preds, List.length_singleton, List.length_eq_one_iff] at harity
  obtain ⟨o, ho⟩ := harity
  have hchoice := hw.choices next phi hphi
  have hself : o = phi.dest := by
    by_contra hne
    simp [onlyChoice?, ho, hne, List.eraseDups_cons] at hchoice
  have hdom := hw.sound.phi next hnext phi hphi (o, b) (by simp [ho, h.preds]) (h.reached hw)
  have hsite : body.DefinedAt o (.phi next) :=
    ⟨hnext.lt_blockCount, hself ▸ List.mem_map_of_mem hphi⟩
  have hbefore := hw.sound.isDefinedBefore_of_dominated (h.reached hw) hdom hsite hnext
  rw [isDefinedBefore, h.not_dominates hw] at hbefore
  cases hbefore

end Mergeable

/-! ## The blocks afterwards -/

/-- The block that holds what a block held. -/
def into (b next c : BlockId) : BlockId := if c = next then b else c

theorem into_of_ne (h : c ≠ next) : into b next c = c := if_neg h

@[simp] theorem into_self (b next : BlockId) : into b next next = b := if_pos rfl

/-- What comes before the operations of a block afterwards. -/
def ahead (body : Body) (b next c : BlockId) :
    List Op := if c = next then (body.block b).ops.dropLast else []

def relink (b next : BlockId) (block : Block) :
    Block := { block with preds := block.preds.map (into b next) }

namespace Mergeable

variable (h : Mergeable body b next) (hw : Whole body)
include h hw

theorem block_relinked (c : BlockId) :
    ((body.block next).successors.foldl (fun body s => body.modifyBlock s (relink b next))
      (body.modifyBlock next fun _ => {})).block c = if c = next then {}
        else relink b next (body.block c) := by
  have hlt : next < body.blockCount := (h.reached_next hw).lt_blockCount
  have hself : next ∉ (body.block next).successors := fun hmem => h.ne_of_edge hw hmem h.ne rfl
  have hnodup : (body.block next).successors.Nodup := nodup_eraseDups _
  rw [block_foldl_modifyBlock hnodup rfl, block_modifyBlock]
  by_cases hcn : c = next
  · simp [hcn, hself, hlt]
  · simp only [Ne.symm hcn, false_and, if_false, hcn]
    split
    next => rfl
    next hnot =>
      have hpreds : (body.block c).preds.map (into b next) = (body.block c).preds := by
        refine (List.map_congr_left fun p hp => into_of_ne ?_).trans (List.map_id _)
        rintro rfl
        exact hnot ((hw.sound.block c (hw.reached_of_preds hp)).preds_edge p hp).2
      rw [relink, hpreds]

theorem merge_eq :
    merge body b next =
    ((body.block next).successors.foldl (fun body s => body.modifyBlock s (relink b next))
    (body.modifyBlock next fun _ => {})).modifyBlock b fun block =>
      { block with ops := block.ops.dropLast ++ (body.block next).ops, handlers :=
        (body.block next).handlers } := by
  simp only [merge, h.phis_eq_nil hw]
  rfl

theorem blockCount_merge : (merge body b next).blockCount = body.blockCount := by
  rw [h.merge_eq hw, blockCount_modifyBlock, blockCount_foldl_modifyBlock, blockCount_modifyBlock]

theorem valueCount_merge : (merge body b next).valueCount = body.valueCount := by
  rw [h.merge_eq hw, valueCount_modifyBlock, valueCount, values_foldl_modifyBlock]
  rfl

theorem block_merge (c : BlockId) : (merge body b next).block c = if c = next then {} else
    { phis := (body.block c).phis
      ops := if c = b then (body.block b).ops.dropLast ++ (body.block next).ops
        else (body.block c).ops
      preds := (body.block c).preds.map (into b next)
      handlers := if c = b then (body.block next).handlers else (body.block c).handlers } := by
  rw [h.merge_eq hw, block_modifyBlock, h.block_relinked hw, blockCount_foldl_modifyBlock,
    blockCount_modifyBlock]
  by_cases hcb : c = b
  · subst hcb
    simp [(h.reached hw).lt_blockCount, Ne.symm h.ne, relink]
  · simp [hcb, Ne.symm hcb, relink]

theorem block_merge_next : (merge body b next).block next = {} := by
  rw [h.block_merge hw, if_pos rfl]

theorem phis_merge (hc : c ≠ next) : ((merge body b next).block c).phis = (body.block c).phis := by
  rw [h.block_merge hw, if_neg hc]

theorem preds_merge (hc : c ≠ next) :
    ((merge body b next).block c).preds = (body.block c).preds.map (into b next) := by
  rw [h.block_merge hw, if_neg hc]

theorem ops_merge :
    ((merge body b next).block b).ops = (body.block b).ops.dropLast ++ (body.block next).ops := by
  rw [h.block_merge hw, if_neg (Ne.symm h.ne)]
  exact if_pos rfl

theorem ops_into (hc : c ≠ b) :
    ((merge body b next).block (into b next c)).ops = ahead body b next c ++
    (body.block c).ops := by
  by_cases hcn : c = next
  · rw [hcn, into_self, h.ops_merge hw, ahead, if_pos rfl]
  · rw [into_of_ne hcn, h.block_merge hw, if_neg hcn, ahead, if_neg hcn]
    exact if_neg hc

theorem handlers_into (hc : c ≠ b) :
    ((merge body b next).block (into b next c)).handlers = (body.block c).handlers := by
  by_cases hcn : c = next
  · rw [hcn, into_self, h.block_merge hw, if_neg (Ne.symm h.ne)]
    exact if_pos rfl
  · rw [into_of_ne hcn, h.block_merge hw, if_neg hcn]
    exact if_neg hc

theorem terminator?_into (hc : c ≠ b) :
    ((merge body b next).block (into b next c)).terminator? = (body.block c).terminator? := by
  rw [Block.terminator?, h.ops_into hw hc, Block.terminator?]
  by_cases hcn : c = next
  · obtain ⟨before, last, hops, -, -⟩ := (hw.sound.block next (h.reached_next hw)).terminated
    rw [hcn, hops, ← List.append_assoc, List.getLast?_concat, List.getLast?_concat]
  · rw [ahead, if_neg hcn, List.nil_append]

theorem normalSuccessors_into (hc : c ≠ b) :
    ((merge body b next).block (into b next c)).normalSuccessors =
    (body.block c).normalSuccessors := by
  rw [Block.normalSuccessors, h.terminator?_into hw hc, Block.normalSuccessors]

theorem handlerTargets_into (hc : c ≠ b) :
    ((merge body b next).block (into b next c)).handlerTargets = (body.block c).handlerTargets := by
  rw [Block.handlerTargets, h.handlers_into hw hc, Block.handlerTargets]

theorem successors_into (hc : c ≠ b) :
    ((merge body b next).block (into b next c)).successors = (body.block c).successors := by
  rw [Block.successors, h.normalSuccessors_into hw hc, h.handlerTargets_into hw hc,
    Block.successors]

theorem isExceptionalSuccessor_into (hc : c ≠ b) (t : BlockId) :
    ((merge body b next).block (into b next c)).isExceptionalSuccessor t =
    (body.block c).isExceptionalSuccessor t := by
  simp only [Block.isExceptionalSuccessor, Block.isHandlerTarget, h.normalSuccessors_into hw hc,
    h.handlerTargets_into hw hc]

/-! ## Paths -/

/-- A path goes through the block that was taken over whenever it goes on from the one that took
it. -/
theorem path_of_merge {allowed : BlockId → Prop}
    (hpath : (merge body b next).graph.Path allowed 0 c) :
    body.graph.Path (fun x => allowed (into b next x)) 0 c ∧ c ≠ next := by
  have hsize : (merge body b next).graph.size = body.graph.size := by
    rw [size_graph, size_graph, h.blockCount_merge hw]
  induction hpath with
  | refl hlt hok => exact ⟨.refl (hsize ▸ hlt) (by rwa [into_of_ne (Ne.symm h.ne_zero)]),
      Ne.symm h.ne_zero⟩
  | @snoc x y _ hmem hlt hok ih =>
    obtain ⟨hpath, hx⟩ := ih
    rw [hsize] at hlt
    rw [successors_graph] at hmem
    have hbn : b ≠ next := Ne.symm h.ne
    by_cases hxb : x = b
    · have hsuccessors := h.successors_into hw h.ne
      rw [into_self] at hsuccessors
      rw [hxb, hsuccessors] at hmem
      have hy : y ≠ next := h.ne_of_edge hw hmem h.ne
      have hnext : body.graph.Path (fun x => allowed (into b next x)) 0 next := by
        refine hpath.snoc (by rw [successors_graph, hxb, h.successors]; simp) ?_ ?_
        · rw [size_graph]
          exact (h.reached_next hw).lt_blockCount
        · have hallowed := hpath.target_allowed
          rw [hxb, into_of_ne hbn] at hallowed
          rwa [into_self]
      exact ⟨hnext.snoc (by rwa [successors_graph]) hlt (by rwa [into_of_ne hy]), hy⟩
    · rw [← into_of_ne hx, h.successors_into hw hxb] at hmem
      have hy : y ≠ next := h.ne_of_edge hw hmem hxb
      exact ⟨hpath.snoc (by rwa [successors_graph]) hlt (by rwa [into_of_ne hy]), hy⟩

theorem reached_into (hc : body.Reached c) : (merge body b next).Reached (into b next c) := by
  have hsize : (merge body b next).graph.size = body.graph.size := by
    rw [size_graph, size_graph, h.blockCount_merge hw]
  induction hc with
  | refl hlt _ =>
    rw [into_of_ne (Ne.symm h.ne_zero)]
    exact .refl (hsize ▸ hlt) trivial
  | @snoc x y _ hmem hlt _ ih =>
    rw [successors_graph] at hmem
    by_cases hxb : x = b
    · rw [hxb, h.successors, List.mem_singleton] at hmem
      rw [hxb, into_of_ne (Ne.symm h.ne)] at ih
      rw [hmem, into_self]
      exact ih
    · rw [into_of_ne (h.ne_of_edge hw hmem hxb)]
      exact ih.snoc (by rwa [successors_graph, h.successors_into hw hxb]) (hsize.symm ▸ hlt) trivial

theorem reached_merge_iff : (merge body b next).Reached c ↔ body.Reached c ∧ c ≠ next := by
  constructor
  · intro hc
    obtain ⟨hpath, hne⟩ := h.path_of_merge hw hc
    exact ⟨hpath.mono fun _ _ => trivial, hne⟩
  · rintro ⟨hc, hne⟩
    rw [← into_of_ne hne]
    exact h.reached_into hw hc

theorem dominates_into {a : BlockId} (hc : body.Reached c)
    (hdom : body.dominators.dominates a c = true) :
    (merge body b next).dominators.dominates (into b next a) (into b next c) = true := by
  rw [Body.dominators, Dominators.dominates_iff hc] at hdom
  rw [Body.dominators, Dominators.dominates_iff (h.reached_into hw hc)]
  intro hpath
  obtain ⟨hpath', hne⟩ := h.path_of_merge hw hpath
  suffices hpath : body.graph.Path (fun x => into b next x ≠ into b next a) 0 c from
    hdom (hpath.mono fun x hx heq => hx (congrArg _ heq))
  by_cases hcn : c = next
  · subst hcn
    rw [into_self] at hpath' hpath
    refine hpath'.snoc (by rw [successors_graph, h.successors]; simp) ?_ ?_
    · rw [size_graph]
      exact hc.lt_blockCount
    · rw [into_self]
      exact hpath.target_allowed
  · rwa [into_of_ne hcn] at hpath'

/-! ## Operations -/

theorem getElem?_into (hop : (body.block c).ops[k]? = some op)
    (hterm : c = b → op.isTerminator = false) :
    ((merge body b next).block (into b next c)).ops[(ahead body b next c).length + k]? =
      some op := by
  by_cases hcb : c = b
  · subst hcb
    rw [into_of_ne (Ne.symm h.ne), ahead, if_neg (Ne.symm h.ne), List.length_nil, Nat.zero_add,
      h.ops_merge hw]
    have hlt := (List.getElem?_eq_some_iff.1 hop).1
    have hne : k ≠ (body.block c).ops.length - 1 := by
      rintro rfl
      obtain rfl := Option.some.inj (hop.symm.trans h.getElem?_goto)
      exact absurd (hterm rfl) (by simp [Op.isTerminator])
    have hk : k < (body.block c).ops.dropLast.length := by grind
    rw [h.ends, List.getElem?_append_left hk] at hop
    rw [List.getElem?_append_left hk]
    exact hop
  · rw [h.ops_into hw hcb, List.getElem?_append_right (Nat.le_add_right _ _),
      Nat.add_sub_cancel_left]
    exact hop

theorem exists_of_getElem? (hc : c ≠ next) (hop : ((merge body b next).block c).ops[i]? = some op) :
    ∃ d k, into b next d = c ∧ (body.block d).ops[k]? = some op ∧
      i = (ahead body b next d).length + k ∧
      (d = b → op.isTerminator = false) := by
  by_cases hcb : c = b
  · subst hcb
    rw [h.ops_merge hw] at hop
    by_cases hi : i < (body.block c).ops.dropLast.length
    · rw [List.getElem?_append_left hi] at hop
      have hget : (body.block c).ops[i]? = some op := by grind
      refine ⟨c, i, into_of_ne (Ne.symm h.ne), hget, by simp [ahead, Ne.symm h.ne], fun _ => ?_⟩
      rw [← Bool.not_eq_true]
      intro hterm
      have hend :=
        (checkPlacement_eq_ok.1 ((hw.sound.block c (h.reached hw)).placed i op hget)).1 hterm
      rw [List.length_dropLast] at hi
      omega
    · rw [List.getElem?_append_right (Nat.le_of_not_lt hi)] at hop
      refine ⟨next, _, into_self .., hop, ?_, fun heq => absurd heq h.ne⟩
      rw [ahead, if_pos rfl]
      omega
  · refine ⟨c, i, into_of_ne hc, ?_, by simp [ahead, hc], fun heq => absurd heq hcb⟩
    rw [← into_of_ne hc, h.ops_into hw hcb, ahead, if_neg hc, List.nil_append] at hop
    exact hop

/-- The block whose end a block has afterwards. -/
theorem exists_source (hc : (merge body b next).Reached c) :
    ∃ d, d ≠ b ∧ into b next d = c ∧ body.Reached d := by
  obtain ⟨hreached, hne⟩ := (h.reached_merge_iff hw).1 hc
  by_cases hcb : c = b
  · exact ⟨next, h.ne, hcb ▸ into_self .., h.reached_next hw⟩
  · exact ⟨c, hcb, into_of_ne hne, hreached⟩

theorem quiet_ahead (hc : c ≠ b) : ((merge body b next).block (into b next c)).handlers = [] ∨
    ∀ throws ∈ (ahead body b next c).map Op.canThrow, throws = false := by
  rw [h.handlers_into hw hc]
  by_cases hcn : c = next
  · subst hcn
    refine h.quiet.imp_right fun hquiet throws hmem => ?_
    rw [ahead, if_pos rfl] at hmem
    obtain ⟨op, hop, rfl⟩ := List.mem_map.1 hmem
    exact hquiet op (List.mem_of_mem_dropLast hop)
  · simp [ahead, hcn]

theorem canThrow_into (hc : c ≠ b) :
    ((merge body b next).block (into b next c)).ops.map Op.canThrow =
    (ahead body b next c).map Op.canThrow ++ (body.block c).ops.map Op.canThrow := by
  rw [h.ops_into hw hc, List.map_append]

/-! ## Definitions -/

def movedSite (body : Body) (b next : BlockId) : DefSite → DefSite
  | .phi c => .phi c
  | .op c i => .op (into b next c) ((ahead body b next c).length + i)

theorem definedAt_merge {site : DefSite} (hsite : body.DefinedAt v site) :
    (merge body b next).DefinedAt v (movedSite body b next site) := by
  cases site with
  | phi c =>
    have hne : c ≠ next := by
      rintro rfl
      have := hsite.2
      simp [Block.phiDests, h.phis_eq_nil hw] at this
    exact ⟨(h.blockCount_merge hw).symm ▸ hsite.1, by
      rw [Block.phiDests, h.phis_merge hw hne]; exact hsite.2⟩
  | op c i =>
    have hc := hw.reached_of_definedAt hsite
    obtain ⟨-, op, hop, hdest⟩ := hsite
    refine ⟨(h.reached_into hw hc).lt_blockCount, op, h.getElem?_into hw hop fun _ => ?_, hdest⟩
    rw [← Bool.not_eq_true]
    intro hterm
    cases op <;> simp_all [Op.isTerminator, Op.dest?]

theorem exists_definedAt {site : DefSite} (hsite : (merge body b next).DefinedAt v site) :
    ∃ old, body.DefinedAt v old ∧ site = movedSite body b next old := by
  cases site with
  | phi c =>
    have hne : c ≠ next := by
      rintro rfl
      have := hsite.2
      simp [Block.phiDests, h.block_merge_next hw] at this
    refine ⟨.phi c, ⟨h.blockCount_merge hw ▸ hsite.1, ?_⟩, rfl⟩
    have := hsite.2
    rwa [Block.phiDests, h.phis_merge hw hne] at this
  | op c i =>
    obtain ⟨-, op, hop, hdest⟩ := hsite
    have hne : c ≠ next := by
      rintro rfl
      simp [h.block_merge_next hw] at hop
    obtain ⟨d, k, rfl, hop', rfl, -⟩ := h.exists_of_getElem? hw hne hop
    exact ⟨.op d k, ⟨lt_blockCount_of_getElem? hop', op, hop', hdest⟩, rfl⟩

theorem dominated_into (hc : body.Reached c) (hv : body.Dominated c k v)
    (hi : (ahead body b next c).length + k ≤ i) :
    (merge body b next).Dominated (into b next c) i v := by
  obtain ⟨site, hsite, hbefore⟩ := hv
  refine ⟨movedSite body b next site, h.definedAt_merge hw hsite, ?_⟩
  cases site with
  | phi d =>
    have hne : d ≠ next := by
      rintro rfl
      have := hsite.2
      simp [Block.phiDests, h.phis_eq_nil hw] at this
    have hdom := h.dominates_into hw hc hbefore
    rwa [into_of_ne hne] at hdom
  | op d j =>
    obtain ⟨-, op, hop, hdest⟩ := hsite
    simp only [movedSite, isDefinedBefore] at hbefore ⊢
    by_cases hdc : d = c
    · grind
    · rw [if_neg hdc] at hbefore
      split
      next heq =>
        -- the two were joined: the definition is in the first, before its last operation
        unfold into at heq
        split at heq
        next hd =>
          split at heq
          next hcn => exact absurd (hd.trans hcn.symm) hdc
          next =>
            rw [hd, ← heq, h.not_dominates hw] at hbefore
            cases hbefore
        next hd =>
          split at heq
          next hcn =>
            subst heq
            have hlt := (List.getElem?_eq_some_iff.1 hop).1
            have hne : j ≠ (body.block d).ops.length - 1 := by
              rintro rfl
              obtain rfl := Option.some.inj (hop.symm.trans h.getElem?_goto)
              simp [Op.dest?] at hdest
            rw [ahead, if_pos hcn, List.length_dropLast] at hi
            rw [ahead, if_neg hd, List.length_nil, decide_eq_true_eq]
            omega
          next => exact absurd heq hdc
      next => exact h.dominates_into hw hc hbefore

theorem exitPosition_into {p : BlockId} (hpb : p ≠ b) (t : BlockId) :
    (merge body b next).exitPosition (into b next p) t = (ahead body b next p).length +
      body.exitPosition p t := by
  have hthrow := Block.throwingIndex?_suffix _ (by rw [h.handlers_into hw hpb])
    (h.canThrow_into hw hpb) (h.quiet_ahead hw hpb)
  simp only [exitPosition, h.isExceptionalSuccessor_into hw hpb, hthrow, h.ops_into hw hpb,
    List.length_append,
    List.length_map]
  split
  · cases (body.block p).throwingIndex? <;> rfl
  · rfl

/-! ## The whole body -/

theorem mem_preds_merge {p : BlockId} (hc : c ≠ next)
    (hp : p ∈ ((merge body b next).block c).preds) :
    ∃ q ∈ (body.block c).preds, into b next q = p ∧ q ≠ b := by
  rw [h.preds_merge hw hc] at hp
  obtain ⟨q, hq, rfl⟩ := List.mem_map.1 hp
  refine ⟨q, hq, rfl, ?_⟩
  rintro rfl
  exact h.not_mem_preds hw hc hq

theorem placed_merge (hc : (merge body b next).Reached c)
    (hop : ((merge body b next).block c).ops[i]? = some op) :
    (merge body b next).checkPlacement c op i = .ok () := by
  obtain ⟨hreached, hne⟩ := (h.reached_merge_iff hw).1 hc
  obtain ⟨d, k, rfl, hop', rfl, hterm⟩ := h.exists_of_getElem? hw hne hop
  have hd := hw.reached_of_ops (List.mem_of_getElem? hop')
  obtain ⟨hend, hargument, hcaught⟩ :=
    checkPlacement_eq_ok.1 ((hw.sound.block d hd).placed k op hop')
  refine checkPlacement_eq_ok.2 ⟨fun ht => ?_, fun harg => ?_, fun hexc => ?_⟩
  · have hdb : d ≠ b := fun heq => by simp [hterm heq] at ht
    rw [h.ops_into hw hdb, List.length_append, ← hend ht, Nat.add_assoc]
  · obtain ⟨rfl, hall⟩ := hargument harg
    have hzero : 0 ≠ next := Ne.symm h.ne_zero
    refine ⟨into_of_ne hzero, ?_⟩
    rw [ahead, if_neg hzero, List.length_nil, Nat.zero_add, into_of_ne hzero]
    by_cases hb : 0 = b
    · subst hb
      have hlt := (List.getElem?_eq_some_iff.1 hop').1
      rw [h.ends, List.take_append_of_le_length (by rw [List.length_dropLast]; omega)] at hall
      rwa [h.ops_merge hw, List.take_append_of_le_length (by rw [List.length_dropLast]; omega)]
    · have hops := h.ops_into hw hb
      rw [into_of_ne hzero, ahead, if_neg hzero, List.nil_append] at hops
      rwa [hops]
  · obtain ⟨rfl, hentry⟩ := hcaught hexc
    have hdn : d ≠ next := by
      rintro rfl
      rw [h.starts op hop'] at hexc
      cases hexc
    rw [into_of_ne hdn, ahead, if_neg hdn]
    refine ⟨rfl, ?_⟩
    simp only [Body.isHandlerEntry, Bool.and_eq_true, Bool.not_eq_true', List.isEmpty_eq_false_iff,
      List.all_eq_true]
      at hentry ⊢
    refine ⟨by rw [h.preds_merge hw hdn]; simpa using hentry.1, fun p hp => ?_⟩
    obtain ⟨q, hq, rfl, hqb⟩ := h.mem_preds_merge hw hdn hp
    rw [h.isExceptionalSuccessor_into hw hqb]
    exact hentry.2 q hq

theorem checkedBlock_merge (hc : (merge body b next).Reached c) :
    (merge body b next).CheckedBlock c := by
  obtain ⟨hreached, hne⟩ := (h.reached_merge_iff hw).1 hc
  have hblock := hw.sound.block c hreached
  obtain ⟨d, hdb, hdc, hd⟩ := h.exists_source hw hc
  have hsource := hw.sound.block d hd
  refine ⟨hc, ?_, fun i op hop => h.placed_merge hw hc hop, ?_, ?_, fun p hp => ?_, fun s hs => ?_,
    fun phi hphi => ?_⟩
  · rw [← hdc, h.terminator?_into hw hdb]
    exact hsource.terminator
  · rw [← hdc, Block.throwsAtEnd_suffix _ (by rw [h.handlers_into hw hdb]) (h.canThrow_into hw hdb)
      (h.quiet_ahead hw hdb)]
    exact hsource.throws_at_end
  · rw [h.preds_merge hw hne]
    refine hblock.preds_nodup.map_on fun p hp q hq heq => ?_
    have hnot : ∀ p ∈ (body.block c).preds, p ≠ b := fun p hp heq =>
      h.not_mem_preds hw hne (heq ▸ hp)
    unfold into at heq
    split at heq
    next hpn => grind
    next => grind
  · obtain ⟨q, hq, rfl, hqb⟩ := h.mem_preds_merge hw hne hp
    have hedge := (hblock.preds_edge q hq).2
    rw [h.successors_into hw hqb]
    exact ⟨(h.reached_into hw (hw.reached_of_edge hedge)).lt_blockCount, hedge⟩
  · rw [← hdc, h.successors_into hw hdb] at hs
    obtain ⟨hlt, hpred⟩ := hsource.successors s hs
    rw [h.blockCount_merge hw, h.preds_merge hw (h.ne_of_edge hw hs hdb), ← hdc]
    exact ⟨hlt, List.mem_map_of_mem hpred⟩
  · rw [h.phis_merge hw hne] at hphi
    rw [h.preds_merge hw hne, List.length_map]
    exact hblock.arity phi hphi

theorem sound_merge : (merge body b next).Sound where
  entry_preds := by
    rw [h.preds_merge hw (Ne.symm h.ne_zero), hw.sound.entry_preds, List.map_nil]
  block := fun _ hc => h.checkedBlock_merge hw hc
  phis_nodup := fun c hc => by
    obtain ⟨hreached, hne⟩ := (h.reached_merge_iff hw).1 hc
    rw [Block.phiDests, h.phis_merge hw hne]
    exact hw.sound.phis_nodup c hreached
  site_unique := fun v site other hsite hother _ _ => by
    obtain ⟨old, hold, rfl⟩ := h.exists_definedAt hw hsite
    obtain ⟨old', hold', rfl⟩ := h.exists_definedAt hw hother
    rw [hw.sound.site_unique v old old' hold hold' (hw.reached_of_definedAt hold)
      (hw.reached_of_definedAt hold')]
  defined_lt := fun v site hsite _ => by
    obtain ⟨old, hold, -⟩ := h.exists_definedAt hw hsite
    rw [h.valueCount_merge hw]
    exact hw.sound.defined_lt v old hold (hw.reached_of_definedAt hold)
  phi := fun c hc phi hphi e he _ => by
    obtain ⟨hreached, hne⟩ := (h.reached_merge_iff hw).1 hc
    rw [h.phis_merge hw hne] at hphi
    rw [h.preds_merge hw hne, List.zip_map_right, List.mem_map] at he
    obtain ⟨⟨o, p⟩, hmem, rfl⟩ := he
    have hpred := (List.of_mem_zip hmem).2
    have hp := hw.reached_of_edge ((hw.sound.block c hreached).preds_edge p hpred).2
    have hpb : p ≠ b := fun heq => h.not_mem_preds hw hne (heq ▸ hpred)
    exact h.dominated_into hw hp (hw.sound.phi c hreached phi hphi (o, p) hmem hp)
      (h.exitPosition_into hw hpb c).ge
  use := fun c hc i op hop v hv => by
    obtain ⟨-, hne⟩ := (h.reached_merge_iff hw).1 hc
    obtain ⟨d, k, rfl, hop', rfl, -⟩ := h.exists_of_getElem? hw hne hop
    have hd := hw.reached_of_ops (List.mem_of_getElem? hop')
    exact h.dominated_into hw hd (hw.sound.use d hd k op hop' v hv) (Nat.le_refl _)

theorem whole_merge : Whole (merge body b next) where
  sound := h.sound_merge hw
  whole := fun c => by
    by_cases hcn : c = next
    · exact .inr (hcn ▸ h.block_merge_next hw)
    rcases hw.whole c with hc | hempty
    · exact .inl ((h.reached_merge_iff hw).2 ⟨hc, hcn⟩)
    · have hcb : c ≠ b := by
        rintro rfl
        have := h.goto_mem
        simp [hempty] at this
      right
      rw [h.block_merge hw, if_neg hcn, hempty]
      simp [hcb]
  choices := fun c phi hphi => by
    have hne : c ≠ next := by
      rintro rfl
      simp [h.block_merge_next hw] at hphi
    rw [h.phis_merge hw hne] at hphi
    exact hw.choices c phi hphi

/-! ## Running -/

variable {V W : Type} {host : Host V W} {args : Nat → V} {w : W} {m : Memory V}

theorem picks_into (hc : c ≠ b) (ht : t ∈ (body.block c).successors) (x : Operand) :
    (merge body b next).picks (into b next c) t x = body.picks c t x := by
  have htn := h.ne_of_edge hw ht hc
  have hblock := hw.sound.block c (hw.reached_of_edge ht)
  have hpred := (hblock.successors t ht).2
  have hreached := hw.reached_of_preds hpred
  have hphis := h.phis_merge hw htn
  by_cases hx : x ∈ (body.block t).phiDests
  · obtain ⟨phi, hphi, rfl⟩ := List.mem_map.1 hx
    have hnodup := hw.sound.phis_nodup t hreached
    obtain ⟨o, ho⟩ := Block.incoming?_of_mem hpred ((hw.sound.block t hreached).arity phi hphi)
    have ho' : ((merge body b next).block t).incoming? (into b next c) phi = some o := by
      have hblock' := h.checkedBlock_merge hw ((h.reached_merge_iff hw).2 ⟨hreached, htn⟩)
      rw [Block.incoming?_eq_some_iff hblock'.preds_nodup, h.preds_merge hw htn, List.zip_map_right]
      exact List.mem_map_of_mem (Block.mem_zip_of_incoming? ho)
    rw [picks_of_phi hnodup hphi ho, picks_of_phi (by rwa [Block.phiDests, hphis])
      (by rwa [hphis]) ho']
  · rw [picks_of_not_phi hx, picks_of_not_phi (by rwa [Block.phiDests, hphis])]

/-- Both are at the same operation; the first has a jump ahead as long as it is in the first of the
blocks. -/
def Related (body : Body) (b next : BlockId) (n : Nat)
    (a a' : Option (Config (BlockId × Nat) V W)) : Prop :=
  (a = none ∧ a' = none) ∨ ∃ c k w m, body.Reached c ∧ k < (body.block c).ops.length ∧
    n = (if c = b then 1 else 0) ∧ a = some ⟨(c, k), w, m⟩ ∧
      a' = some ⟨(into b next c, (ahead body b next c).length + k), w, m⟩

theorem related_enter (hc : c ≠ b) (hleaves : body.LeavesAt c k t) (j : Nat) :
    ∃ n, Related body b next n (some (body.routine.enter (c, k) t w m))
      (some ((merge body b next).routine.enter (into b next c, j) t w m)) := by
  have hop := hleaves
  obtain ⟨op, hget, -⟩ := hop
  have hreached := hw.reached_of_ops (List.mem_of_getElem? hget)
  have ht := (hw.sound.block c hreached).mem_successors_of_leavesAt hleaves
  have htn := h.ne_of_edge hw ht hc
  have hreached' := (hw.sound.edge_of_leavesAt hreached hleaves).1
  refine ⟨_, .inr ⟨t, 0, w, _, hreached', (hw.sound.block t hreached').ops_length_pos,
    rfl, rfl, ?_⟩⟩
  rw [into_of_ne htn, ahead, if_neg htn]
  simp only [Routine.enter, routine, h.picks_into hw hc ht, List.length_nil, Nat.add_zero]

theorem lockstep :
    Lockstep (body.routine.Step host args) ((merge body b next).routine.Step host args)
    (Related body b next) := by
  rintro n a a' (⟨rfl, rfl⟩ | ⟨c, k, w, m, hc, hlt, rfl, rfl, rfl⟩)
  · refine .inr (.inr ⟨fun _ _ hstep => ?_, fun _ _ hstep => ?_⟩) <;> cases hstep
  obtain ⟨op, hop⟩ : ∃ op, (body.block c).ops[k]? = some op := ⟨_, List.getElem?_eq_getElem hlt⟩
  have he := effect?_routine hop
  by_cases hgoto : c = b ∧ op.isTerminator = true
  · -- the jump from one to the other
    obtain ⟨rfl, hterm⟩ := hgoto
    have hk := (hw.sound.block c hc).terminator_at_end hop hterm
    obtain rfl : k = (body.block c).ops.length - 1 := by omega
    obtain rfl := Option.some.inj (hop.symm.trans h.getElem?_goto)
    refine .inl ⟨0, by simp, _, slips_of_goto he, .inr ⟨next, 0, w, m, h.reached_next hw,
        (hw.sound.block next (h.reached_next hw)).ops_length_pos, by simp [h.ne], ?_, ?_⟩⟩
    · have hpicks : ∀ v, body.picks c next v = v := fun v =>
        picks_of_not_phi (by simp [Block.phiDests, h.phis_eq_nil hw]) c
      simp only [Routine.enter, routine, hpicks]
    · rw [into_of_ne (Ne.symm h.ne), into_self, ahead, if_neg (Ne.symm h.ne), ahead, if_pos rfl]
      simp
  · have hterm : c = b → op.isTerminator = false := fun hcb => by grind
    have hop' := h.getElem?_into hw hop hterm
    refine .inr (.inr (matched_both he (effect?_routine hop') op.corresponds_self
      (fun _ _ heq => congrArg m.store heq) rfl ?_))
    refine ⟨fun seen w' value hrun =>
      ⟨_, .inr ⟨c, k + 1, w', m.after op.effect value, hc, ?_, rfl, rfl, rfl⟩⟩,
      fun seen w' t t' hrun _ ht => ?_, fun seen w' x hrun => ?_, 0, .inl ⟨rfl, rfl⟩⟩
    · refine Nat.lt_of_le_of_ne hlt fun hlast => ?_
      have := hrun.leaves_of_next
      rw [Op.leaves_effect, (hw.sound.block c hc).isTerminator_of_last hop hlast] at this
      cases this
    · subst ht
      have hcb : c ≠ b := fun hcb => by
        have := (Op.leaves_of_jump hrun).1
        rw [hterm hcb] at this
        cases this
      exact h.related_enter hw hcb (leavesAt_of_jump hop hrun) _
    · have hthrow := Op.canThrow_of_raise hrun
      by_cases hcb : c = b
      · subst hcb
        have hquiet := h.quiet.resolve_right fun hnone => by
          simp [hnone op (List.mem_of_getElem? hop)] at hthrow
        have hnone : (body.routine.handlers (c, k)) = [] := h.handlers
        have hnone' : (merge body c next).routine.handlers (into c next c,
            (ahead body c next c).length + k) = [] := by
          have := h.handlers_into hw h.ne
          rw [into_self, hquiet] at this
          rwa [into_of_ne (Ne.symm h.ne)]
        rw [hnone, hnone']
        exact .nil
      · have hhandlers : (merge body b next).routine.handlers (into b next c,
            (ahead body b next c).length + k) =
            (body.block c).handlers := h.handlers_into hw hcb
        rw [hhandlers]
        exact List.forall₂_same.2 fun handler hh =>
          ⟨rfl, h.related_enter hw hcb (leavesAt_of_raise hop hrun hh) _⟩

theorem sameBehaviour_merge (host : Host V W) (args : Nat → V) (w : W) (m : Memory V) :
    SameBehaviour (body.routine.Step host args) ((merge body b next).routine.Step host args)
      (some ⟨(0, 0), w, m⟩) (some ⟨(0, 0), w, m⟩) := by
  have hzero : 0 ≠ next := Ne.symm h.ne_zero
  have hreached : body.Reached 0 := .refl (h.reached hw).source_lt_size trivial
  refine (h.lockstep hw).sameBehaviour
    (.inr ⟨0, 0, w, m, hreached, (hw.sound.block 0 hreached).ops_length_pos, rfl, rfl, ?_⟩)
  rw [into_of_ne hzero, ahead, if_neg hzero]
  rfl

/-! ## What is left to join -/

/-- Joining two blocks makes no other block one that can take over its successor. -/
theorem mergeable_of_merge (hc : c ≠ b) (hm : Mergeable (merge body b next) c t) :
    Mergeable body c t := by
  have hcn : c ≠ next := by
    rintro rfl
    have := hm.goto_mem
    simp [h.block_merge_next hw] at this
  have htn : t ≠ next := by
    rintro rfl
    have := hm.preds
    simp [h.block_merge_next hw] at this
  have hops := h.ops_into hw hc
  have hhandlers := h.handlers_into hw hc
  rw [into_of_ne hcn, ahead, if_neg hcn, List.nil_append] at hops
  rw [into_of_ne hcn] at hhandlers
  refine ⟨hops ▸ hm.ends, hm.ne, hm.ne_zero, hhandlers ▸ hm.handlers, ?_, fun op hop => ?_, ?_⟩
  · have hpreds := hm.preds
    rw [h.preds_merge hw htn, List.map_eq_singleton_iff] at hpreds
    obtain ⟨q, hq, hqc⟩ := hpreds
    have hqn : q ≠ next := by
      rintro rfl
      exact hc (hqc.symm.trans (into_self b q))
    rw [hq, ← hqc, into_of_ne hqn]
  · by_cases hterm : op.isTerminator = true
    · cases op <;> simp_all [Op.isTerminator, Op.isMoveException]
    · have hop' := h.getElem?_into hw hop fun _ => by simpa using hterm
      rw [into_of_ne htn, ahead, if_neg htn] at hop'
      exact hm.starts op hop'
  · rw [← hops]
    by_cases htb : t = b
    · exact .inl (htb ▸ h.handlers)
    · have := h.handlers_into hw htb
      rw [into_of_ne htn] at this
      rw [← this]
      exact hm.quiet

end Mergeable

/-! ## All of them -/

def filledCount (body : Body) :
    Nat := totalOf (fun c => if (body.block c).ops.isEmpty then 0 else 1) body.blockIds

theorem filledCount_le (body : Body) : filledCount body ≤ body.blockCount := by
  have hone : filledCount body ≤ totalOf (fun _ => 1) body.blockIds :=
    totalOf_le_totalOf fun c _ => by
    split <;> simp
  exact hone.trans (by simp [totalOf_eq_foldr, ← List.sum_eq_foldr, blockIds, blockCount])

theorem Mergeable.filledCount_lt (h : Mergeable body b next) (hw : Whole body) :
    filledCount (merge body b next) < filledCount body := by
  have hids : (merge body b next).blockIds = body.blockIds :=
    congrArg List.range (h.blockCount_merge hw)
  have hnext := h.reached_next hw
  rw [filledCount, filledCount, hids]
  refine totalOf_lt_totalOf (fun c _ => ?_) (mem_blockIds.2 hnext.lt_blockCount) ?_
  · by_cases hcb : c = b
    · have := h.goto_mem
      subst hcb
      have hne : (body.block c).ops.isEmpty = false := by grind
      rw [hne]
      split <;> simp
    · by_cases hcn : c = next
      · rw [hcn, h.block_merge_next hw]
        simp
      · have := h.ops_into hw hcb
        rw [into_of_ne hcn, ahead, if_neg hcn, List.nil_append] at this
        rw [this]
  · have hne : (body.block next).ops ≠ [] :=
      List.ne_nil_of_length_pos (hw.sound.block next hnext).ops_length_pos
    rw [h.block_merge_next hw]
    simp [hne]

theorem mergeable?_of_le (h : body.blockCount ≤ c) : mergeable? body c = none := by
  cases hm : mergeable? body c with
  | none => rfl
  | some t =>
    have := (mergeable?_eq_some.1 hm).goto_mem
    rw [block_of_le h] at this
    simp at this

/-- What one join preserves holds at the end, and no block can take over another then. -/
theorem mergeFrom_induction {motive : Body → Prop} (method : MethodId)
    (hstep : ∀ body b next, Whole body → Mergeable body b next → motive body →
      motive (merge body b next))
    (fuel : Nat) (b : BlockId) (body : Body) (events : List Event) (hw : Whole body)
    (hbody : motive body) (hdone : ∀ c < b, mergeable? body c = none)
    (hfuel : body.blockCount - b + filledCount body ≤ fuel) :
    Whole (mergeFrom method fuel b body events).1 ∧ motive (mergeFrom method fuel b body events).1 ∧
      ∀ c, mergeable? (mergeFrom method fuel b body events).1 c = none := by
  have hend : ∀ {b body}, (∀ c < b, mergeable? body c = none) → body.blockCount ≤ b → ∀ c,
      mergeable? body c = none := by
    intro b body hdone hle c
    by_cases hc : c < b
    · exact hdone c hc
    · exact mergeable?_of_le (hle.trans (Nat.le_of_not_lt hc))
  fun_induction mergeFrom method fuel b body events with
  | case1 b body events =>
    refine ⟨hw, hbody, hend hdone ?_⟩
    change body.blockCount ≤ b
    omega
  | case2 fuel b body events hlt hnone ih => grind
  | case3 fuel b body events hlt next hsome ih =>
    have hm := mergeable?_eq_some.1 hsome
    refine ih (hm.whole_merge hw) (hstep body b next hw hm hbody) (fun c hc => ?_) ?_
    · cases hnone : mergeable? (merge body b next) c with
      | none => rfl
      | some t =>
        have := hm.mergeable_of_merge hw hc.ne (mergeable?_eq_some.1 hnone)
        rw [← mergeable?_eq_some, hdone c hc] at this
        cases this
    · have := hm.filledCount_lt hw
      rw [hm.blockCount_merge hw]
      omega
  | case4 fuel b body events hle => exact ⟨hw, hbody, hend hdone (Nat.le_of_not_lt hle)⟩

end Pass.DeadCode

end BytecodeOpt
