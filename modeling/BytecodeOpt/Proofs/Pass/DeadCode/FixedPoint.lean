import BytecodeOpt.Allocation.Preparation
import BytecodeOpt.Proofs.Pass.DeadCode.Merge
import BytecodeOpt.Proofs.Pass.DeadCode.Sweep

/-!
# One round is enough

After one round no phi picks one value, everything that is left is needed, and no block can take
over another: joining blocks moves operations and phis around, but none of them becomes dead by it.
So a second round finds nothing to do.
-/

namespace BytecodeOpt

open Execution

namespace Pass.DeadCode

open Fallible Ssa Ssa.Body

variable {body body' : Body} {b c t : BlockId} {v d : Operand} {k : Nat} {op : Op} {phi : Phi}
  {f : BlockId → BlockId}

/-! ## The same operations in other blocks -/

/-- The second body has the operations of the first in other blocks, except for jumps. -/
structure Regrouped (body body' : Body) : Prop where
  kept : ∀ b, ∀ op ∈ (body.block b).ops, (∃ t, op = .goto t) ∨
    ∃ c f, op.mapTargets f ∈ (body'.block c).ops
  source : ∀ c, ∀ op' ∈ (body'.block c).ops, ∃ b, ∃ op ∈ (body.block b).ops,
    ∃ f, op' = op.mapTargets f
  phis : ∀ phi, (∃ b, phi ∈ (body.block b).phis) ↔ ∃ c, phi ∈ (body'.block c).phis

theorem mem_definedValues_iff : v ∈ body.definedValues ↔
    (∃ b, ∃ phi ∈ (body.block b).phis, phi.dest = v) ∨ ∃ b, ∃ op ∈ (body.block b).ops,
      op.dest? = some v := by
  rw [mem_definedValues]
  constructor
  · rintro ⟨b, -, hv⟩
    rcases List.mem_append.1 hv with hphi | hop
    · exact .inl ⟨b, List.mem_map.1 hphi⟩
    · exact .inr ⟨b, List.mem_filterMap.1 hop⟩
  · rintro (⟨b, phi, hphi, hdest⟩ | ⟨b, op, hop, hdest⟩)
    · exact ⟨b, lt_blockCount_of_mem_phis hphi,
        List.mem_append_left _ (List.mem_map.2 ⟨phi, hphi, hdest⟩)⟩
    · exact ⟨b, lt_blockCount_of_mem_ops hop,
        List.mem_append_right _ (List.mem_filterMap.2 ⟨op, hop, hdest⟩)⟩

@[simp] theorem isRoot_mapTargets : isRoot (op.mapTargets f) = isRoot op := by
  cases op <;> rfl

theorem dropDeadResult_mapTargets (isLive : Operand → Bool) :
    dropDeadResult isLive (op.mapTargets f) = (dropDeadResult isLive op).mapTargets f := by
  cases op <;> rfl

namespace Regrouped

variable (h : Regrouped body body')
include h

theorem mem_definedValues : v ∈ body'.definedValues ↔ v ∈ body.definedValues := by
  rw [mem_definedValues_iff, mem_definedValues_iff]
  refine or_congr ⟨?_, ?_⟩ ⟨?_, ?_⟩
  · rintro ⟨c, phi, hphi, hdest⟩
    obtain ⟨b, hb⟩ := (h.phis phi).2 ⟨c, hphi⟩
    exact ⟨b, phi, hb, hdest⟩
  · rintro ⟨b, phi, hphi, hdest⟩
    obtain ⟨c, hc⟩ := (h.phis phi).1 ⟨b, hphi⟩
    exact ⟨c, phi, hc, hdest⟩
  · rintro ⟨c, op', hop', hdest⟩
    obtain ⟨b, op, hop, f, rfl⟩ := h.source c op' hop'
    exact ⟨b, op, hop, by simpa using hdest⟩
  · rintro ⟨b, op, hop, hdest⟩
    rcases h.kept b op hop with ⟨t, rfl⟩ | ⟨c, f, hop'⟩
    · cases hdest
    · exact ⟨c, _, hop', by simpa using hdest⟩

theorem needed_iff : Needed body' v ↔ Needed body v := by
  constructor
  · intro hv
    induction hv with
    | root hop' hroot hv =>
      obtain ⟨b, op, hop, f, rfl⟩ := h.source _ _ hop'
      exact .root hop (by simpa using hroot) (by simpa using hv)
    | phi hphi _ hv ih =>
      obtain ⟨b, hb⟩ := (h.phis _).2 ⟨_, hphi⟩
      exact .phi hb ih hv
    | op hop' hdest _ hv ih =>
      obtain ⟨b, op, hop, f, rfl⟩ := h.source _ _ hop'
      exact .op hop (by simpa using hdest) ih (by simpa using hv)
  · intro hv
    induction hv with
    | root hop hroot hv =>
      rcases h.kept _ _ hop with ⟨t, rfl⟩ | ⟨c, f, hop'⟩
      · cases hv
      · exact .root hop' (by simpa using hroot) (by simpa using hv)
    | phi hphi _ hv ih =>
      obtain ⟨c, hc⟩ := (h.phis _).1 ⟨_, hphi⟩
      exact .phi hc ih hv
    | op hop hdest _ hv ih =>
      rcases h.kept _ _ hop with ⟨t, rfl⟩ | ⟨c, f, hop'⟩
      · cases hv
      · exact .op hop' (by simpa using hdest) ih (by simpa using hv)

end Regrouped

theorem Mergeable.regrouped {next : BlockId} (h : Mergeable body b next) (hw : Whole body) :
    Regrouped body (merge body b next) where
  kept := fun c op hop => by
    obtain ⟨k, hk⟩ := List.mem_iff_getElem?.1 hop
    by_cases hgoto : c = b ∧ op.isTerminator = true
    · obtain ⟨rfl, hterm⟩ := hgoto
      have hend := (hw.sound.block c (h.reached hw)).terminator_at_end hk hterm
      obtain rfl : k = (body.block c).ops.length - 1 := by omega
      exact .inl ⟨next, Option.some.inj (hk.symm.trans h.getElem?_goto)⟩
    · have hop' := h.getElem?_into hw hk fun hcb => by grind
      exact .inr ⟨_, id, by rw [Op.mapTargets_id]; exact List.mem_of_getElem? hop'⟩
  source := fun c op hop => by
    have hne : c ≠ next := by
      rintro rfl
      simp [h.block_merge_next hw] at hop
    obtain ⟨i, hi⟩ := List.mem_iff_getElem?.1 hop
    obtain ⟨d, k, -, hop', -, -⟩ := h.exists_of_getElem? hw hne hi
    exact ⟨d, op, List.mem_of_getElem? hop', id, by rw [Op.mapTargets_id]⟩
  phis := fun phi => by
    refine ⟨fun ⟨c, hphi⟩ => ⟨c, ?_⟩, fun ⟨c, hphi⟩ => ⟨c, ?_⟩⟩
    · rwa [h.phis_merge hw]
      rintro rfl
      simp [h.phis_eq_nil hw] at hphi
    · rwa [h.phis_merge hw] at hphi
      rintro rfl
      simp [h.block_merge_next hw] at hphi

/-! ## Closing the gaps -/

section

variable (h : Compacted body body' f) (hw : Whole body)
include h hw

theorem block_compacted (hb : body.Reached b) : body'.block (f b) = renumber f (body.block b) := by
  obtain ⟨trimmed, htrimmed, heq⟩ := h.block b hb
  have hblock := hw.sound.block b hb
  rw [heq, htrimmed.eq_self hblock.regular fun p hp => Digraph.getD_reached.2
    (hw.reached_of_edge (hblock.preds_edge p hp).2)]

theorem phis_compacted (hb : body.Reached b) : (body'.block (f b)).phis = (body.block b).phis := by
  rw [block_compacted h hw hb, renumber, Block.mapTerminator_eq]

theorem ops_compacted (hb : body.Reached b) :
    (body'.block (f b)).ops = (body.block b).ops.map (Op.mapTargets f) := by
  have := (h.redirected hw.sound hb).ops
  rwa [List.drop_zero] at this

omit hw in
theorem exists_reached (hc : body'.block c ≠ {}) : ∃ b, body.Reached b ∧ f b = c := by
  refine h.onto c ?_
  by_contra hle
  exact hc (block_of_le (Nat.le_of_not_lt hle))

theorem regrouped_compacted : Regrouped body body' where
  kept := fun b op hop => by
    have hb := hw.reached_of_ops hop
    exact .inr ⟨f b, f, by rw [ops_compacted h hw hb]; exact List.mem_map_of_mem hop⟩
  source := fun c op' hop' => by
    obtain ⟨b, hb, rfl⟩ := exists_reached h (c := c) (by rintro heq; simp [heq] at hop')
    rw [ops_compacted h hw hb] at hop'
    obtain ⟨op, hop, rfl⟩ := List.mem_map.1 hop'
    exact ⟨b, op, hop, f, rfl⟩
  phis := fun phi => by
    constructor
    · rintro ⟨b, hphi⟩
      exact ⟨f b, by rwa [phis_compacted h hw (hw.reached_of_phis hphi)]⟩
    · rintro ⟨c, hphi⟩
      obtain ⟨b, hb, rfl⟩ := exists_reached h (c := c) (by rintro heq; simp [heq] at hphi)
      exact ⟨b, by rwa [phis_compacted h hw hb] at hphi⟩

theorem mergeable_of_compacted {next : BlockId} (hm : Mergeable body' c next) :
    ∃ b t, Mergeable body b t := by
  have hgoto := hm.goto_mem
  obtain ⟨b, hb, rfl⟩ := exists_reached h (c := c) (by rintro heq; simp [heq] at hgoto)
  obtain ⟨t, ht, rfl⟩ :=
    exists_reached h (c := next) (by have := hm.preds; rintro heq; simp [heq] at this)
  have hops := ops_compacted h hw hb
  have hhandlers : ∀ {b}, body.Reached b →
      ((body'.block (f b)).handlers = [] ↔ (body.block b).handlers = []) := fun hb => by
    rw [block_compacted h hw hb]
    simp [renumber]
  -- the last operation is a jump to the block that is called `f t` now
  obtain ⟨before, last, hlast, -, -⟩ := (hw.sound.block b hb).terminated
  have hend : last = .goto t := by
    have hends := hm.ends
    rw [hops, hlast, List.map_append, List.map_singleton, List.dropLast_concat] at hends
    have hmap : last.mapTargets f = .goto (f t) := by simpa using hends
    cases last with
    | goto s =>
      have hs : body.Reached s := by
        have hmem : s ∈ (body.block b).successors := by
          rw [Block.mem_successors]
          left
          simp [Block.normalSuccessors, Block.Terminated.terminator? hlast rfl,
            Op.successors, Op.targets]
        exact hb.snoc (by rwa [successors_graph])
          (by rw [size_graph]; exact ((hw.sound.block b hb).successors s hmem).1) trivial
      have heq : f s = f t := by simpa [Op.mapTargets] using hmap
      rw [h.inj s t hs ht heq]
    | _ => simp [Op.mapTargets] at hmap
  refine ⟨b, t, ?_, ?_, ?_, (hhandlers hb).1 hm.handlers, ?_, fun op hop => ?_, ?_⟩
  · rw [hlast, hend, List.dropLast_concat]
  · rintro rfl
    exact hm.ne rfl
  · rintro rfl
    exact hm.ne_zero h.entry
  · have hpreds := hm.preds
    rw [block_compacted h hw ht] at hpreds
    obtain ⟨q, hq, hqb⟩ := List.map_eq_singleton_iff.1 hpreds
    have hqreached :=
      hw.reached_of_edge ((hw.sound.block t ht).preds_edge q (hq ▸ List.mem_singleton.2 rfl)).2
    rw [hq, h.inj q b hqreached hb hqb]
  · have := hm.starts (op.mapTargets f) (by rw [ops_compacted h hw ht, List.getElem?_map, hop,
      Option.map_some])
    simpa using this
  · refine hm.quiet.imp (hhandlers ht).1 fun hnone op hop => ?_
    have := hnone (op.mapTargets f) (by rw [hops]; exact List.mem_map_of_mem hop)
    simpa using this

end

/-! ## Bodies in which everything is needed -/

structure Tidy (body : Body) : Prop where
  phi : ∀ b, ∀ phi ∈ (body.block b).phis, Needed body phi.dest
  op : ∀ b, ∀ op ∈ (body.block b).ops, isRoot op = true ∨ ∃ d, op.dest? = some d ∧ Needed body d
  result : ∀ b, ∀ op ∈ (body.block b).ops, ∀ isLive : Operand → Bool,
    (∀ d, Needed body d → isLive d = true) →
    dropDeadResult isLive op = op

theorem Regrouped.tidy (h : Regrouped body body') (ht : Tidy body) : Tidy body' where
  phi := fun c phi hphi => by
    obtain ⟨b, hb⟩ := (h.phis phi).2 ⟨c, hphi⟩
    exact h.needed_iff.2 (ht.phi b phi hb)
  op := fun c op' hop' => by
    obtain ⟨b, op, hop, f, rfl⟩ := h.source c op' hop'
    simpa [h.needed_iff] using ht.op b op hop
  result := fun c op' hop' isLive hlive => by
    obtain ⟨b, op, hop, f, rfl⟩ := h.source c op' hop'
    rw [dropDeadResult_mapTargets, ht.result b op hop isLive fun d hd =>
      hlive d (h.needed_iff.2 hd)]

section

variable (h : body.Checked)
include h

theorem mem_ops_swept {op' : Op} : op' ∈ ((swept body).block b).ops ↔
    ∃ op ∈ (body.block b).ops, isKept (marked body) op = true ∧
      dropDeadResult (marked body) op = op' := by
  rw [(pared_swept h).1.ops, List.mem_filterMap]
  simp only [swept?_eq_some]

theorem needed_swept (hv : Needed body v) : Needed (swept body) v := by
  induction hv with
  | root hop hroot hv =>
    refine .root ((mem_ops_swept h).2 ⟨_, hop, isKept_iff.2 (.inl hroot), rfl⟩) ?_
      (by simpa using hv)
    rename_i op _
    cases op <;> exact hroot
  | phi hphi hd hv ih => exact .phi ((mem_phis_swept h).2 ⟨hphi, hd⟩) ih hv
  | op hop hdest hd hv ih =>
    have hlive := (marked_iff h).2 hd
    exact .op ((mem_ops_swept h).2 ⟨_, hop, isKept_iff.2 (.inr ⟨_, hdest, hlive⟩), rfl⟩)
      (dest?_dropDeadResult_of_live hdest hlive) ih (by simpa using hv)

theorem tidy_swept : Tidy (swept body) where
  phi := fun b phi hphi => needed_swept h ((mem_phis_swept h).1 hphi).2
  op := fun b op' hop' => by
    obtain ⟨op, hop, hkept, rfl⟩ := (mem_ops_swept h).1 hop'
    rcases isKept_iff.1 hkept with hroot | ⟨d, hdest, hd⟩
    · left
      cases op <;> exact hroot
    · exact .inr ⟨d, dest?_dropDeadResult_of_live hdest hd, needed_swept h ((marked_iff h).1 hd)⟩
  result := fun b op' hop' isLive hlive => by
    obtain ⟨op, hop, hkept, rfl⟩ := (mem_ops_swept h).1 hop'
    have hfilter : ∀ dest : Option Operand, (dest.filter (marked body)).filter isLive =
        dest.filter (marked body) := by
      intro dest
      cases dest with
      | none => rfl
      | some d =>
        by_cases hd : marked body d = true
        · simp [Option.filter, hd, hlive d (needed_swept h ((marked_iff h).1 hd))]
        · simp [Option.filter, hd]
    cases op <;> simp [dropDeadResult, hfilter]

theorem sweep_of_tidy (ht : Tidy body) (method : MethodId) : sweep method body = (body, [], 0) := by
  have hkept : ∀ b, ∀ op ∈ (body.block b).ops, isKept (marked body) op = true := fun b op hop => by
    rw [isKept_iff]
    exact (ht.op b op hop).imp_right fun ⟨d, hdest, hd⟩ => ⟨d, hdest, (marked_iff h).2 hd⟩
  have hresult : ∀ b, ∀ op ∈ (body.block b).ops, dropDeadResult (marked body) op = op :=
    fun b op hop =>
    ht.result b op hop _ fun d hd => (marked_iff h).2 hd
  have hphi : ∀ b, ∀ phi ∈ (body.block b).phis, marked body phi.dest = true := fun b phi hphi =>
    (marked_iff h).2 (ht.phi b phi hphi)
  have hblock : ∀ b, sweepBlock (marked body) (body.block b) = body.block b := fun b => by
    have hphis : (body.block b).phis.filter (fun phi => marked body phi.dest) =
        (body.block b).phis :=
      List.filter_eq_self.2 (hphi b)
    have hops : ((body.block b).ops.filter (isKept (marked body))).map
        (dropDeadResult (marked body)) = (body.block b).ops := by
      rw [List.filter_eq_self.2 (hkept b)]
      exact (List.map_congr_left (hresult b)).trans (List.map_id _)
    simp only [sweepBlock, hphis, hops]
  have hbody : body.mapBlocks (sweepBlock (marked body)) = body := by
    have : body.blocks.map (sweepBlock (marked body)) = body.blocks := by
      rw [← Array.toList_inj, Array.toList_map, blocks_toList, List.map_map]
      exact List.map_congr_left fun b _ => hblock b
    rw [mapBlocks, this]
  have hevents : (body.blocks.toList.flatMap fun b =>
      (b.ops.zipIdx.filter fun e => !isKept (marked body) e.1).map fun e =>
        eventAt .instructionRemoved method e.2 e.1.text "dead-code") = [] := by
    rw [blocks_toList, List.flatMap_map, List.flatMap_eq_nil_iff]
    intro b _
    rw [List.map_eq_nil_iff, List.filter_eq_nil_iff]
    intro e he
    have := hkept b e.1 (List.fst_mem_of_mem_zipIdx he)
    simp [this]
  have htotal : totalOf (sweptCount (marked body)) body.blocks.toList = 0 := by
    rw [totalOf_eq_foldr, ← List.sum_eq_foldr, blocks_toList, List.map_map]
    refine List.sum_eq_zero (List.forall_mem_map.2 fun b _ => ?_)
    rw [Function.comp_apply, sweptCount, Nat.add_eq_zero_iff, List.countP_eq_zero,
      List.countP_eq_zero]
    exact ⟨fun phi hphi' => by simp [hphi b phi hphi'], fun op hop => by
      simp [hkept b op hop, hresult b op hop]⟩
  exact Prod.ext hbody (Prod.ext hevents htotal)

end

/-! ## Rounds -/

/-- What no step of a round changes. -/
structure Settled (body : Body) : Prop where
  checked : body.Checked
  choices : ∀ b, ∀ phi ∈ (body.block b).phis, onlyChoice? phi = none
  tidy : Tidy body
  apart : ∀ b, mergeable? body b = none

theorem findTrivialPhi?_eq_none :
    findTrivialPhi? body = none ↔ ∀ b, ∀ phi ∈ (body.block b).phis, onlyChoice? phi = none := by
  simp only [findTrivialPhi?, List.findSome?_eq_none_iff, Option.map_eq_none_iff, mem_blockIds]
  exact ⟨fun h b phi hphi => h b (lt_blockCount_of_mem_phis hphi) phi hphi, fun h b _ => h b⟩

theorem whole_of_checked (h : body.Checked)
    (hchoices : ∀ b, ∀ phi ∈ (body.block b).phis, onlyChoice? phi = none) :
    Whole body where
  sound := h.sound
  whole := fun c => by
    by_cases hc : c < body.blockCount
    · exact .inl (h.block c hc).reachable
    · exact .inr (block_of_le (Nat.le_of_not_lt hc))
  choices := hchoices

/-- Every join is an event. -/
theorem exists_events (method : MethodId) (fuel : Nat) (b : BlockId) (body : Body)
    (events : List Event) :
    ∃ more, (mergeFrom method fuel b body events).2 = events ++ more ∧
      (more = [] → (mergeFrom method fuel b body events).1 = body) := by
  fun_induction mergeFrom method fuel b body events with
  | case1 => exact ⟨[], by simp, fun _ => rfl⟩
  | case2 _ _ _ _ _ _ ih => exact ih
  | case3 _ _ _ _ _ next _ ih => grind
  | case4 => exact ⟨[], by simp, fun _ => rfl⟩

theorem mergeBlocks_eq (h : body.Checked) (method : MethodId) :
    (mergeBlocks method body).1 =
    (mergeFrom method (2 * body.blockCount) 0 body []).1.removeUnreachable := by
  obtain ⟨more, hmore, hsame⟩ := exists_events method (2 * body.blockCount) 0 body []
  rw [List.nil_append] at hmore
  simp only [mergeBlocks, hmore]
  cases more with
  | cons e more => rfl
  | nil =>
    rw [hsame rfl,
      removeUnreachable_of_not (not_hasUnreachable fun b hb => (h.block b hb).reachable)]
    rfl

theorem mergeFrom_of_apart (h : ∀ b, mergeable? body b = none) (method : MethodId)
    (fuel : Nat) (b : BlockId)
    (events : List Event) : mergeFrom method fuel b body events = (body, events) := by
  induction fuel generalizing b with
  | zero => rfl
  | succ fuel ih =>
    rw [mergeFrom, h b]
    split
    · exact ih (b + 1)
    · rfl

theorem round_of_settled (h : Settled body) (method : MethodId) :
    round method body = (body, [], 0) := by
  have hphis : resolvePhis (phiCount body) body = (body, 0) := by
    cases phiCount body with
    | zero => rfl
    | succ n => rw [resolvePhis, findTrivialPhi?_eq_none.2 h.choices]
  have hmerge : mergeBlocks method body = (body, []) := by
    rw [mergeBlocks, mergeFrom_of_apart h.apart]
    rfl
  simp only [round, hphis, sweep_of_tidy h.checked h.tidy, hmerge]
  rfl

/-- What each join keeps is kept until none is left to make. -/
theorem mergeBlocks_induction {motive : Body → Prop} (h : body.Checked)
    (hchoices : ∀ b, ∀ phi ∈ (body.block b).phis, onlyChoice? phi = none) (method : MethodId)
    (hstep : ∀ body b next, Whole body → Mergeable body b next → motive body →
      motive (merge body b next)) (hstart : motive body) :
    ∃ merged, (mergeBlocks method body).1 = merged.removeUnreachable ∧ Whole merged ∧
      motive merged ∧
      ∀ b, mergeable? merged b = none := by
  have hfuel : body.blockCount - 0 + filledCount body ≤ 2 * body.blockCount := by
    have := filledCount_le body
    omega
  exact ⟨_, mergeBlocks_eq h method, mergeFrom_induction method hstep
    (2 * body.blockCount) 0 body []
    (whole_of_checked h hchoices) hstart (fun c hc => absurd hc (Nat.not_lt_zero c)) hfuel⟩

theorem settled_mergeBlocks (h : body.Checked)
    (hchoices : ∀ b, ∀ phi ∈ (body.block b).phis, onlyChoice? phi = none)
    (ht : Tidy body) (method : MethodId) : Settled (mergeBlocks method body).1 := by
  obtain ⟨merged, heq, hw, htidy, hapart⟩ :=
    mergeBlocks_induction (motive := Tidy) h hchoices method
    (fun body b next hw hm ht => (hm.regrouped hw).tidy ht) ht
  rw [heq]
  obtain ⟨f, -, hcompacted⟩ := hw.sound.exists_compacted
  have hregrouped := regrouped_compacted hcompacted hw
  refine ⟨hcompacted.checked hw.sound, fun c phi hphi => ?_, hregrouped.tidy htidy, fun c => ?_⟩
  · obtain ⟨b, hb⟩ := (hregrouped.phis phi).2 ⟨c, hphi⟩
    exact hw.choices b phi hb
  · cases hm : mergeable? merged.removeUnreachable c with
    | none => rfl
    | some t =>
      obtain ⟨b, s, hmergeable⟩ := mergeable_of_compacted hcompacted hw (mergeable?_eq_some.1 hm)
      rw [← mergeable?_eq_some, hapart b] at hmergeable
      cases hmergeable

theorem settled_round (h : body.Checked) (method : MethodId) : Settled (round method body).1 := by
  have hresolved := checked_resolvePhis h (phiCount body)
  have hchoices := findTrivialPhi?_eq_none.1 (findTrivialPhi?_resolvePhis (phiCount body)
    (Nat.le_refl (phiCount body)))
  exact settled_mergeBlocks (checked_swept hresolved)
    (fun b phi hphi => hchoices b phi ((mem_phis_swept hresolved).1 hphi).1)
    (tidy_swept hresolved) method

theorem rounds_of_settled (method : MethodId) (n : Nat) (r : Change) (h : Settled r.body) :
    rounds method n r = r := by
  cases n with
  | zero => rfl
  | succ n =>
    simp only [rounds, round_of_settled h, List.append_nil]
    rfl

/-- The bound on the rounds plays no part: the second would change nothing. -/
theorem body_run (h : body.Checked) (method : MethodId) (maxRounds : Nat) :
    (run method maxRounds body).body = (round method body).1 := by
  obtain ⟨n, hn⟩ : ∃ n, max maxRounds 1 = n + 1 := ⟨max maxRounds 1 - 1, by omega⟩
  rw [run, hn]
  simp only [rounds]
  split
  · rfl
  · rw [rounds_of_settled]
    · rfl
    · exact settled_round h method

/-! ## What the allocation asks for -/

theorem mem_uses_of_needed (h : Needed body v) : v ∈ body.uses := by
  have huses : ∀ {b}, b < body.blockCount → v ∈ (body.block b).uses → v ∈ body.uses :=
    fun hb hv => by
    rw [Body.uses, blocks_toList, List.mem_flatMap]
    exact ⟨_, List.mem_map_of_mem (mem_blockIds.2 hb), hv⟩
  cases h with
  | root hop _ hv | op hop _ _ hv =>
    exact huses (lt_blockCount_of_mem_ops hop)
      (List.mem_append_right _ (List.mem_flatMap.2 ⟨_, hop, hv⟩))
  | phi hphi _ hv =>
    exact huses (lt_blockCount_of_mem_phis hphi)
      (List.mem_append_left _ (List.mem_flatMap.2 ⟨_, hphi, hv⟩))

theorem checkAllocatable_of_settled (h : Settled body) :
    Allocation.checkAllocatable body = .ok () := by
  have hused : ∀ v, Needed body v → Allocation.isUnused body.useCounts v = false := fun v hv => by
    have hlt : v < body.valueCount := by
      cases hv with
      | root hop _ hv => exact lt_valueCount_of_uses h.checked hop hv
      | phi hphi _ hv => exact lt_valueCount_of_operands h.checked hphi hv
      | op hop _ _ hv => exact lt_valueCount_of_uses h.checked hop hv
    have hcount := List.count_pos_iff.2 (mem_uses_of_needed hv)
    rw [Allocation.isUnused, getD_useCounts hlt, decide_eq_false_iff_not]
    omega
  rw [Allocation.checkAllocatable, forM_eq_ok]
  intro b _
  have hphis : (body.block b).phis.find? (fun phi => Allocation.isUnused body.useCounts phi.dest) =
      none :=
    List.find?_eq_none.2 fun phi hphi => by simp [hused _ (h.tidy.phi b phi hphi)]
  rw [Allocation.checkBlock, hphis, forM_eq_ok]
  intro op hop
  refine if_neg ?_
  rcases h.tidy.op b op hop with hroot | ⟨d, hdest, hd⟩
  · have : op.hasSideEffects = true := hroot
    simp [this]
  · simp [hdest, hused d hd]

/-- Dropping dead code a second time changes nothing, whatever the bounds on the rounds. -/
theorem second_run_unchanged (h : body.check = .ok ()) (method : MethodId) (maxRounds again : Nat) :
    let result := (run method maxRounds body).body
    run method again result = .unchanged result ∧ Allocation.checkAllocatable result = .ok () := by
  intro result
  have hchecked := check_eq_ok_iff.1 h
  have hsettled : Settled result := by
    rw [show result = _ from body_run hchecked method maxRounds]
    exact settled_round hchecked method
  exact ⟨rounds_of_settled method _ (.unchanged result) hsettled,
    checkAllocatable_of_settled hsettled⟩

/-- A loop around a phi that picks one value, after a constant that nobody reads. -/
def constantLoop : Body where
  method := ⟨⟨"p.A"⟩, "f", ⟨.int, [.int]⟩⟩
  blocks := #[
    { ops := [.argument 0 0, .const 1 (.int 5), .const 2 (.int 6), .goto 1] },
    { phis := [⟨3, [1, 3]⟩], ops := [.branch .eq 0 none 2 3], preds := [0, 2] },
    { ops := [.goto 1], preds := [1] },
    { ops := [.ret (some 3)], preds := [1] }]
  values := #[.int, .int, .int, .int]

theorem second_run_unchanged_constantLoop : constantLoop.check = .ok () ∧
    (run constantLoop.method 1 constantLoop).body ≠ constantLoop ∧
    run constantLoop.method 1 (run constantLoop.method 1 constantLoop).body =
      .unchanged (run constantLoop.method 1 constantLoop).body :=
  have hcheck : constantLoop.check = .ok () := by decide +kernel
  ⟨hcheck, by decide +kernel, (second_run_unchanged hcheck constantLoop.method 1 1).1⟩

end Pass.DeadCode

end BytecodeOpt
