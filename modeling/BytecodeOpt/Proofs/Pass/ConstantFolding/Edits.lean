import BytecodeOpt.Pass.ConstantFolding
import BytecodeOpt.Proofs.Ssa.Exchange

/-!
# Jumps for branches

Operations of a body may be exchanged, and a branch may give way to a jump to one of its targets.
The body stays sound, and what is known of its constants stays right.
-/

namespace BytecodeOpt

open Execution

def Constant.number? : Constant → Option Int
  | .null => some 0
  | c => c.toInt?

namespace Ssa.Block

variable {b : Block} {p : BlockId}

theorem removePred_ops (b : Block) (p : BlockId) : (b.removePred p).ops = b.ops := by
  unfold removePred
  split <;> rfl

theorem removePred_handlers (b : Block) (p : BlockId) : (b.removePred p).handlers = b.handlers := by
  unfold removePred
  split <;> rfl

theorem phiDests_removePred (b : Block) (p : BlockId) : (b.removePred p).phiDests = b.phiDests := by
  unfold removePred
  split
  · rfl
  · simp [phiDests, Function.comp_def]

theorem preds_removePred (b : Block) (p : BlockId) : (b.removePred p).preds.Sublist b.preds := by
  unfold removePred
  split
  · exact .refl _
  · exact List.eraseIdx_sublist ..

end Ssa.Block

namespace Pass.ConstantFolding

open Ssa Ssa.Body

variable {body body' : Body} {b t : BlockId} {i k : Nat} {v dest : Operand} {c : Constant}
  {op : Op} {n : Int}

/-! ## Constants of a body -/

def IsConst (body : Body) (v : Operand) (c : Constant) :
    Prop := ∃ b, Op.const v c ∈ (body.block b).ops

theorem IsConst.definedAt (h : IsConst body v c) :
    ∃ b i, body.DefinedAt v (.op b i) ∧ (body.block b).ops[i]? = some (.const v c) := by
  obtain ⟨b, hmem⟩ := h
  obtain ⟨i, hop⟩ := List.mem_iff_getElem?.1 hmem
  exact ⟨b, i, ⟨lt_blockCount_of_getElem? hop, _, hop, rfl⟩, hop⟩

/-- A sound body whose other blocks are in order, too. -/
structure Tidy (body : Body) : Prop where
  sound : body.Sound
  terminated : ∀ b < body.blockCount, (body.block b).Terminated
  site_unique : ∀ v site other, body.DefinedAt v site → body.DefinedAt v other → site = other
  defined_lt : ∀ v site, body.DefinedAt v site → v < body.valueCount

theorem Tidy.of_checked (h : body.Checked) : Tidy body where
  sound := h.sound
  terminated := fun b hb => (h.block b hb).terminated
  site_unique := fun _ _ _ hsite hother => h.site_unique hsite hother
  defined_lt := fun v _ hsite => h.defined_lt v (mem_definedValues_of_definedAt hsite)

/-- What the folding knows of the constants. -/
structure Knows (body : Body) (constants : Constants) : Prop where
  size : constants.size = body.valueCount
  exact : ∀ v c, constants.getD v none = some c ↔ IsConst body v c

/-- The constant that an operation puts into the table. -/
def record (known : Constants) (e : BlockId × Op) : Constants :=
  match e.2 with
  | .const dest value => known.setIfInBounds dest (some value)
  | _ => known

theorem getD_foldl_record (ops : List (BlockId × Op)) (count : Nat)
    (hunique : ∀ v c c' b b', (b, Op.const v c) ∈ ops → (b', Op.const v c') ∈ ops → c = c')
    (hbound : ∀ v c b, (b, Op.const v c) ∈ ops → v < count) :
    (ops.foldl record (Array.replicate count none)).size = count ∧
      ∀ v c, (ops.foldl record (Array.replicate count none)).getD v none = some c ↔
        ∃ b, (b, Op.const v c) ∈ ops := by
  -- the last operation of the list is the one whose entry stays
  induction ops using List.reverseRecOn with
  | nil =>
    refine ⟨by simp, fun v c => ?_⟩
    rw [List.foldl_nil, Table.getD_replicate]
    simp
  | append_singleton ops e ih =>
    obtain ⟨b, op⟩ := e
    obtain ⟨hsize, hgetD⟩ :=
      ih (fun v c c' b b' hc hc' => hunique v c c' b b' (List.mem_append_left _ hc)
      (List.mem_append_left _ hc')) fun v c b hc => hbound v c b (List.mem_append_left _ hc)
    rw [List.foldl_append, List.foldl_cons, List.foldl_nil]
    by_cases hconst : ∃ v c, op = .const v c
    · obtain ⟨v, c, rfl⟩ := hconst
      have hmem : (b, Op.const v c) ∈ ops ++ [(b, Op.const v c)] := by simp
      refine ⟨by simp [record, hsize], fun x c' => ?_⟩
      rw [record, Table.getD_setIfInBounds, hsize]
      by_cases hx : v = x
      · grind
      · grind
    · have hrecord : ∀ known, record known (b, op) = known := fun known => by
        unfold record
        split
        · exact absurd ⟨_, _, by assumption⟩ hconst
        · rfl
      rw [hrecord]
      refine ⟨hsize, fun x c' => ?_⟩
      rw [hgetD]
      have hne : Op.const x c' ≠ op := fun heq => hconst ⟨x, c', heq.symm⟩
      simp [hne]

theorem Tidy.const_unique (h : Tidy body) {c' : Constant} (hc : IsConst body v c)
    (hc' : IsConst body v c') :
    c = c' := by
  obtain ⟨b, i, hsite, hop⟩ := hc.definedAt
  obtain ⟨b', i', hsite', hop'⟩ := hc'.definedAt
  cases h.site_unique v _ _ hsite hsite'
  simpa [hop] using hop'

theorem Tidy.knows_constants (h : Tidy body) : Knows body body.constants := by
  have hmem : ∀ v c, IsConst body v c ↔ ∃ b, (b, Op.const v c) ∈ body.ops := fun v c => by
    exact exists_congr fun b =>
      ⟨fun hop => mem_ops.2 ⟨lt_blockCount_of_mem_ops hop, hop⟩, fun hop => (mem_ops.1 hop).2⟩
  obtain ⟨hsize, hgetD⟩ := getD_foldl_record body.ops body.valueCount
    (fun v c c' b b' hc hc' => h.const_unique ((hmem v c).2 ⟨b, hc⟩) ((hmem v c').2 ⟨b', hc'⟩))
      fun v c b hc => by
      obtain ⟨d, i, hsite, -⟩ := ((hmem v c).2 ⟨b, hc⟩).definedAt
      exact h.defined_lt v _ hsite
  exact ⟨hsize, fun v c => (hgetD v c).trans (hmem v c).symm⟩

/-! ## Operations exchanged while a body is folded -/

section

variable {h : BlockId → Op → Op} (hex : Exchanged body body' h)
include hex

theorem Tidy.exchanged (ht : Tidy body) : Tidy body' := by
  refine ⟨hex.sound ht.sound, fun b hb => ?_, fun v site other hsite hother => ?_,
    fun v site hsite => ?_⟩
  · obtain ⟨before, last, hops, hlast, hbefore⟩ := ht.terminated b (hex.pared.count ▸ hb)
    have hstands := fun op hop => (hex.pared.stands b op hop _ rfl).isTerminator
    refine ⟨before.map (h b), h b last, by rw [hex.ops, hops, List.map_append]; rfl, ?_,
      fun op hop => ?_⟩
    · rw [hstands last (by simp [hops]), hlast]
    · grind
  · exact ht.site_unique v site other (hex.definedAt_iff.1 hsite) (hex.definedAt_iff.1 hother)
  · rw [hex.pared.values]
    exact ht.defined_lt v site (hex.definedAt_iff.1 hsite)

theorem unmixed_exchanged (hunmixed : body.Unmixed) : body'.Unmixed := by
  intro b hb t ht hmem
  rw [hex.pared.handlerTargets_eq] at ht
  exact hunmixed b (hex.pared.count ▸ hb) t ht (hex.pared.edges b hmem)

end

/-! ## A constant for an operation -/

section

variable (hf : Tidy body) (hop : (body.block b).ops[k]? = some op) (hdest : op.dest? = some dest)
include hf hop hdest

/-- No other operation has that destination. -/
theorem eq_of_dest {d : BlockId} {j : Nat} {other : Op}
    (hother : (body.block d).ops[j]? = some other)
    (hdest' : other.dest? = some dest) : d = b ∧ j = k ∧ other = op := by
  have heq := hf.site_unique dest (.op d j) (.op b k) ⟨lt_blockCount_of_getElem? hother, other,
    hother, hdest'⟩
    ⟨lt_blockCount_of_getElem? hop, op, hop, hdest⟩
  obtain ⟨rfl, rfl⟩ := DefSite.op.inj heq
  exact ⟨rfl, rfl, by simpa [hop] using hother.symm⟩

omit hf in
end

/-! ## A jump for a branch -/

def cut (body : Body) (b target : BlockId) : List BlockId :=
  (body.block b).normalSuccessors.filter fun s => s != target && !(body.block b).isHandlerTarget s

def endFor (b : BlockId) (last : Op) (c : BlockId) (op : Op) :
    Op := if c = b ∧ op.isTerminator = true then last else op

/-- A block before it loses predecessors. -/
def jumped (body : Body) (b target c : BlockId) : Block :=
  if b = c then (body.block c).mapTerminator fun _ => .goto target else body.block c

theorem endFor_of_ne {c : BlockId} {last : Op} (h : c ≠ b) :
    endFor b last c = id := funext fun _ => if_neg fun hhere => h hhere.1

section

variable {target c : BlockId}

theorem block_foldBranch (hb : b < body.blockCount) (target c : BlockId) :
    (body.foldBranch b target).block c =
    if c ∈ cut body b target then (jumped body b target c).removePred b
      else jumped body b target c := by
  have hnodup : (cut body b target).Nodup := (Block.nodup_normalSuccessors _).filter _
  have hfold : body.foldBranch b target = (cut body b target).foldl
      (fun body s => body.modifyBlock s (·.removePred b))
      (body.modifyBlock b (·.mapTerminator fun _ => .goto target)) := rfl
  rw [hfold, block_foldl_modifyBlock hnodup rfl, block_modifyBlock, jumped]
  by_cases hc : b = c
  · subst hc
    simp [hb]
  · simp [hc]

theorem jumped_eq (body : Body) (b target c : BlockId) :
    jumped body b target c = { body.block c with ops := (jumped body b target c).ops } := by
  unfold jumped
  split
  · exact Block.mapTerminator_eq ..
  · rfl

theorem trimmed_foldBranch (hb : b < body.blockCount) (target : BlockId)
    (hregular : (body.block c).Regular) :
    Block.Trimmed (fun p => decide ¬ (p = b ∧ c ∈ cut body b target)) (jumped body b target c)
      ((body.foldBranch b target).block c) := by
  have hregular' : (jumped body b target c).Regular := by
    rw [jumped_eq]
    exact ⟨hregular.nodup, hregular.arity⟩
  rw [block_foldBranch hb]
  split
  next hcut => exact (hregular'.removePred b).congr fun p _ => by simp [hcut, bne,
    Bool.beq_eq_decide_eq]
  next hcut => exact hregular'.trimmed_self fun p _ => by simp [hcut]

theorem values_foldBranch : (body.foldBranch b target).values = body.values :=
  values_foldl_modifyBlock _ _ _

theorem blockCount_foldBranch : (body.foldBranch b target).blockCount = body.blockCount :=
  (blockCount_foldl_modifyBlock _ _ _).trans (blockCount_modifyBlock ..)

theorem lt_blockCount_of_terminator (hlast : (body.block b).terminator? = some op) :
    b < body.blockCount := by
  exact lt_blockCount_of_mem_ops (List.mem_of_getLast? (Option.filter_eq_some_iff.1 hlast).1)

variable (hf : Tidy body) (hlast : (body.block b).terminator? = some op)
include hf hlast

theorem eq_of_terminator {other : Op} (hop : other ∈ (body.block b).ops)
    (hterm : other.isTerminator = true) : other = op := by
  obtain ⟨before, last, hops, hlast', hbefore⟩ :=
    hf.terminated b (lt_blockCount_of_terminator hlast)
  rw [Block.Terminated.terminator? hops hlast', Option.some.injEq] at hlast
  rw [hops] at hop
  grind

theorem ops_mapTerminator (last : Op) :
    ((body.block b).mapTerminator fun _ => last).ops = (body.block b).ops.map
    (endFor b last b) := by
  obtain ⟨before, last', hops, hlast', hbefore⟩ :=
    hf.terminated b (lt_blockCount_of_terminator hlast)
  have hsame : before.map (endFor b last b) = before :=
    (List.map_congr_left fun op hop => by simp [endFor, hbefore op hop]).trans (List.map_id _)
  simp [Block.mapTerminator, hlast, hops, hsame, endFor, hlast']

theorem ops_foldBranch (target c : BlockId) :
    ((body.foldBranch b target).block c).ops = (body.block c).ops.map
    (endFor b (.goto target) c) := by
  have hb := lt_blockCount_of_terminator hlast
  have hops : ((body.foldBranch b target).block c).ops = (jumped body b target c).ops := by
    rw [block_foldBranch hb]
    split
    · exact Block.removePred_ops ..
    · rfl
  rw [hops, jumped]
  by_cases hc : b = c
  · subst hc
    rw [if_pos rfl, ops_mapTerminator hf hlast]
  · rw [if_neg hc, endFor_of_ne (Ne.symm hc), List.map_id]

theorem normalSuccessors_foldBranch (target c : BlockId) :
    ((body.foldBranch b target).block c).normalSuccessors =
    if c = b then [target] else (body.block c).normalSuccessors := by
  have hb := lt_blockCount_of_terminator hlast
  have hops := ops_foldBranch hf hlast target c
  by_cases hc : c = b
  · subst hc
    obtain ⟨before, last, hbody, hterm, -⟩ := hf.terminated c hb
    have hend : ((body.foldBranch c target).block c).ops = before.map (endFor c (.goto target) c) ++
        [.goto target] := by
      rw [hops, hbody, List.map_append]
      simp [endFor, hterm]
    rw [Block.normalSuccessors, Block.Terminated.terminator? hend rfl, if_pos rfl]
    rfl
  · rw [endFor_of_ne hc, List.map_id] at hops
    rw [if_neg hc, Block.normalSuccessors, Block.terminator?, hops, Block.normalSuccessors,
      Block.terminator?]

variable (ht : target ∈ op.targets)
include ht

theorem exchanged_foldBranch (hunmixed : body.Unmixed) :
    Exchanged body (body.foldBranch b target) (endFor b (.goto target)) := by
  have hb := lt_blockCount_of_terminator hlast
  have hops := ops_foldBranch hf hlast target
  have hnormal := normalSuccessors_foldBranch hf hlast target
  have hblock := fun c => block_foldBranch hb target c
  have htarget : target ∈ (body.block b).normalSuccessors := by
    simpa [Block.normalSuccessors, hlast, Op.successors, List.mem_eraseDups] using ht
  have hhandlers : ∀ c, ((body.foldBranch b target).block c).handlers = (body.block c).handlers :=
    fun c => by
    rw [hblock, jumped_eq]
    split
    · exact Block.removePred_handlers ..
    · rfl
  have hphis : ∀ c, ((body.foldBranch b target).block c).phiDests = (body.block c).phiDests :=
    fun c => by
    rw [hblock, jumped_eq]
    split
    · exact Block.phiDests_removePred ..
    · rfl
  have hpreds : ∀ c, ((body.foldBranch b target).block c).preds.Sublist (body.block c).preds :=
    fun c => by
    rw [hblock, jumped_eq]
    split
    · exact Block.preds_removePred ..
    · exact .refl _
  have hedges : ∀ c, ((body.foldBranch b target).block c).normalSuccessors ⊆
      (body.block c).normalSuccessors := fun c => by
    grind
  have hsuccessors : ∀ c s, s ∈ ((body.foldBranch b target).block c).successors ↔
      s ∈ ((body.foldBranch b target).block c).normalSuccessors ∨
        s ∈ (body.block c).handlerTargets := fun c s => by
    rw [Block.mem_successors, Block.handlerTargets, hhandlers, Block.handlerTargets]
  have hreached : ∀ c, (body.foldBranch b target).Reached c → body.Reached c := fun c hc => by
    refine hc.of_successors (by rw [size_graph, size_graph, blockCount_foldBranch]) fun x y hy => ?_
    rw [successors_graph, hsuccessors] at hy
    rw [successors_graph, Block.mem_successors]
    exact hy.imp_left fun hmem => hedges x hmem
  have htrimmed : ∀ c, (body.foldBranch b target).Reached c → _ := fun c hc =>
    trimmed_foldBranch hb target (hf.sound.block c (hreached c hc)).regular
  have hpared : Pared body (body.foldBranch b target) fun c op =>
      some (endFor b (.goto target) c op) := by
    refine ⟨blockCount_foldBranch, ?_, fun c => by rw [hops, List.filterMap_eq_map'], hhandlers,
      fun c other _ other' heq => ?_,
      fun _ _ _ _ => rfl, fun c => (hphis c) ▸ .refl _, hpreds, fun c hc p hp =>
        ?_, fun c hc phi hphi => ?_, hedges,
      fun c t hhandler hmem => ?_⟩
    · rw [valueCount, values_foldBranch, valueCount]
    · obtain rfl := Option.some.inj heq
      unfold endFor
      split
      next hterm => cases other <;> cases hterm.2 <;> exact ⟨rfl, rfl, rfl, by simp [Op.canThrow],
        by simp [Op.dest?]⟩
      next => exact .refl other
    · have hedge := ((hf.sound.block c (hreached c hc)).preds_edge p hp).2
      have hmem : p ∈ ((body.foldBranch b target).block c).preds ↔
          ¬ (p = b ∧ c ∈ cut body b target) := by
        rw [(htrimmed c hc).preds, jumped_eq, List.mem_filter, decide_eq_true_iff]
        exact and_iff_right hp
      rw [Block.mem_successors] at hedge
      rw [hmem, hsuccessors, hnormal]
      by_cases hpb : p = b
      · subst hpb
        simp only [cut, Block.isHandlerTarget, List.mem_filter, Bool.and_eq_true, bne_iff_ne,
          Bool.not_eq_true',
          List.contains_eq_mem, decide_eq_false_iff_not, true_and, if_true, List.mem_singleton]
        tauto
      · simp [hpb, hedge]
    · obtain ⟨old, -, hold⟩ := Fallible.exists_left_of_forall₂ (htrimmed c hc).phis hphi
      exact hold.2.1
    · have hlt : c < body.blockCount := by
        by_contra hnot
        simp [block_of_le (Nat.le_of_not_lt hnot), Block.handlerTargets] at hhandler
      exact absurd hmem (hunmixed c hlt t hhandler)
  refine ⟨hpared, fun c other _ => ?_, fun c j other hc hother v hv => ?_, hphis, fun c hc => ?_⟩
  · unfold endFor
    split
    next hterm => cases other <;> cases hterm.2 <;> rfl
    next => rfl
  · refine hf.sound.use c hc j other hother v ?_
    unfold endFor at hv
    split at hv
    · cases hv
    · exact hv
  · have h := (htrimmed c hc).phis
    rw [jumped_eq] at h
    exact h.imp fun phi phi' hphi => ⟨hphi.1, hphi.2.2 ▸ List.filter_subset_self _⟩

omit ht in
omit hf in
omit ht in
end

end Pass.ConstantFolding

end BytecodeOpt
