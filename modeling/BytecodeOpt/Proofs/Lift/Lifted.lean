import BytecodeOpt.Proofs.Lift.Blocks
import BytecodeOpt.Proofs.Lift.TrivialPhis

/-!
# Lifted bodies

Whatever code is lifted, the body is well formed, no block leads to another both normally and by an
exception, and what is read is in scope also where an exception cuts a block short.
-/

namespace BytecodeOpt.Ssa

namespace Lift

open Fallible

variable {src : Source} {types : List ValueType} {b c : BlockId} {s : State} {i : Instruction}
  {st : BlockState}

/-! ## What a stretch of instructions becomes -/

section Translates

variable {st : BlockState} {index : Nat} {f f' : Frame} {is : List Instruction} {ops : List Op}

theorem Translates.append {first second : List Instruction}
    (h : Translates src c st index f (first ++ second) ops f') :
    ∃ ops₁ ops₂ f₁, ops = ops₁ ++ ops₂ ∧ Translates src c st index f first ops₁ f₁ ∧
      Translates src c st (index + first.length) f₁ second ops₂ f' := by
  induction first generalizing index f ops with
  | nil => exact ⟨[], ops, f, rfl, .nil, h⟩
  | cons i rest ih =>
    have hindex : index + (i :: rest).length = index + 1 + rest.length := by grind
    rw [hindex]
    rw [List.cons_append] at h
    cases h with
    | cons hbecomes hrest =>
      obtain ⟨ops₁, ops₂, f₁, rfl, h₁, h₂⟩ := ih hrest
      exact ⟨_, ops₂, f₁, (List.append_assoc _ _ _).symm, .cons hbecomes h₁, h₂⟩

section

variable (h : Translates src c st index f is ops f')
include h

theorem Translates.exists_renders :
    ∀ op ∈ ops, ∃ i ∈ is, ∃ holds index, Renders src holds index i op := by
  induction h with
  | nil => simp
  | cons hbecomes _ ih =>
    intro op hop
    rcases List.mem_append.1 hop with hop | hop
    · cases hbecomes with
      | op hrender _ _ => grind
      | taken | nothing | copy _ => cases hop
    · grind

theorem Translates.not_argument : ∀ op ∈ ops, op.isArgument = false := by
  intro op hop
  obtain ⟨i, -, holds, k, hrender⟩ := h.exists_renders op hop
  exact hrender.not_argument

theorem Translates.not_terminator (his : ∀ i ∈ is, i.isBranch = false) :
    ∀ op ∈ ops, op.isTerminator = false := by
  intro op hop
  obtain ⟨i, hi, holds, k, hrender⟩ := h.exists_renders op hop
  exact hrender.isTerminator_eq.trans (his i hi)

theorem Translates.not_throw (his : ∀ i ∈ is, i.canThrow = false) :
    ∀ op ∈ ops, op.canThrow = false := by
  intro op hop
  obtain ⟨i, hi, holds, k, hrender⟩ := h.exists_renders op hop
  exact hrender.canThrow_eq.trans (his i hi)

theorem Translates.moveResults (his : ∀ i ∈ is, i.isMoveResult = true) : ops = [] := by
  refine List.eq_nil_iff_forall_not_mem.2 fun op hop => ?_
  obtain ⟨i, hi, holds, k, hrender⟩ := h.exists_renders op hop
  have := hrender.not_moveResult
  simp [his i hi] at this

end

theorem Translates.single (h : Translates src c st index f [i] ops f')
    (hi : i.isBranch = true ∨ i.canThrow = true) :
    ∃ op holds, ops = [op] ∧ Renders src holds index i op := by
  cases h with
  | cons hbecomes hrest =>
    cases hrest
    cases hbecomes with
    | op hrender _ _ => exact ⟨_, _, rfl, hrender⟩
    | taken | nothing | copy _ => simp [Instruction.isBranch, Instruction.canThrow] at hi

end Translates

/-! ## How a block ends -/

structure Ends (src : Source) (c : BlockId) (ops : List Op) (last : Op) : Prop where
  terminator : last.isTerminator = true
  inner : ∀ op ∈ ops, op.isTerminator = false
  successors : src.layout.successors c =
    (last.targets ++ (src.layout.block c).handlers.map Handler.target).eraseDups
  unmixed : ∀ h ∈ (src.layout.block c).handlers, h.target ∉ last.targets

theorem forall₂_blockAt_unique {targets : List Nat} {xs ys : List BlockId}
    (hx : List.Forall₂ (fun t x => src.layout.blockAt t = .ok x) targets xs)
    (hy : List.Forall₂ (fun t y => src.layout.blockAt t = .ok y) targets ys) : xs = ys := by
  induction hx generalizing ys with
  | nil =>
    cases hy
    rfl
  | cons hxt _ ih =>
    cases hy with
    | cons hyt hys => grind

theorem getD_eq_of_getElem? {is : List Instruction} {k : Nat} (h : is[k]? = some i) :
    is.getD k .nop = i := by
  rw [List.getD_eq_getElem?_getD, h]
  rfl

/-- A block ends with an instruction, and before it nothing branches. -/
theorem exists_last_instruction
    (hdescribes : Layout.Describes src.code src.layout (src.layout.block c)) :
    ∃ before last, instructionsOf src c = before ++ [last] ∧
      (src.layout.block c).stop = (src.layout.block c).start + before.length + 1 ∧
      src.code.instructions.getD ((src.layout.block c).stop - 1) .nop = last ∧ ∀ i ∈ before,
        i.isBranch = false := by
  have hlength := length_instructionsOf hdescribes.stop_le
  have hlt := hdescribes.start_lt
  have hne : instructionsOf src c ≠ [] := by grind
  obtain ⟨before, last, hsplit⟩ := (List.eq_nil_or_concat' _).resolve_left hne
  rw [hsplit, List.length_append, List.length_singleton] at hlength
  have hat : ∀ {k i}, (before ++ [last])[k]? = some i →
      src.code.instructions.getD ((src.layout.block c).start + k) .nop = i := fun hget =>
    getD_eq_of_getElem? (getElem?_instructionsOf (hsplit ▸ hget)).2
  have hstop : (src.layout.block c).stop = (src.layout.block c).start + before.length + 1 := by
    omega
  refine ⟨before, last, hsplit, hstop, ?_, fun i hi => ?_⟩
  · rw [hstop, Nat.add_sub_cancel]
    exact hat (by simp)
  · obtain ⟨k, hk, rfl⟩ := List.mem_iff_getElem.1 hi
    have := hdescribes.inner ((src.layout.block c).start + k) (by omega) (by omega)
    rwa [hat (by rw [List.getElem?_append_left hk, List.getElem?_eq_getElem hk])] at this

theorem falls_of_not_branch (h : i.isBranch = false) : i.targets = [] ∧ i.endsFlow = false := by
  cases i <;> simp_all [Instruction.isBranch, Instruction.targets, Instruction.endsFlow]

theorem ends_of_shape (hsound : Layout.Sound src.code src.layout) (hc : c < src.layout.blocks.size)
    {ops : List Op} (h : Shape src types st c ops) :
    ∃ before last, ops = before ++ [last] ∧ Ends src c before last := by
  cases h with
  | @entry dests target hlength _ htarget =>
    refine ⟨_, _, rfl, rfl, ?_, ?_, ?_⟩
    · intro op hop
      obtain ⟨e, -, rfl⟩ := List.mem_map.1 hop
      rfl
    · have hone := hsound.blockAt 1 (by decide) hsound.size
      rw [hsound.first, htarget] at hone
      cases hone
      rw [Layout.successors, hsound.entry]
      rfl
    · simp [hsound.entry]
  | leaves hne htrans hlast =>
    have hdescribes := hsound.describes c (Nat.pos_of_ne_zero hne) hc
    obtain ⟨before, last, hsplit, hstop, hget, hinner⟩ := exists_last_instruction hdescribes
    rw [hsplit] at htrans hlast
    obtain ⟨ops₁, ops₂, f₁, rfl, htrans₁, htrans₂⟩ := htrans.append
    have hbranch : last.isBranch = true := by simpa using hlast
    obtain ⟨op, holds, rfl, hrender⟩ := htrans₂.single (.inl hbranch)
    obtain ⟨next, hnext, hsuccessors, hunmixed⟩ := hdescribes.next
    have htargets : op.targets = next := by
      refine forall₂_blockAt_unique hrender.targets ?_
      rw [Layout.nextOf, hget, hstop] at hnext
      simp only [hbranch, Bool.true_and, Bool.not_eq_eq_eq_not, Bool.not_true]
      cases hends : last.endsFlow
      · simpa [hends] using hnext
      · simpa [hends] using hnext
    refine ⟨ops₁, op, rfl, hrender.isTerminator_eq.trans hbranch,
      htrans₁.not_terminator hinner, ?_, ?_⟩
    · rw [htargets]
      exact hsuccessors
    · grind
  | falls hne htrans hlast htarget =>
    rename_i ops target
    have hdescribes := hsound.describes c (Nat.pos_of_ne_zero hne) hc
    obtain ⟨before, last, hsplit, hstop, hget, hinner⟩ := exists_last_instruction hdescribes
    have hbranch : last.isBranch = false := by grind
    obtain ⟨hnone, hends⟩ := falls_of_not_branch hbranch
    obtain ⟨next, hnext, hsuccessors, hunmixed⟩ := hdescribes.next
    have htargets : [target] = next := by
      refine forall₂_blockAt_unique (.cons htarget .nil) ?_
      rw [Layout.nextOf, hget, hnone, hends] at hnext
      simpa using hnext
    refine ⟨ops, .goto target, rfl, rfl, htrans.not_terminator ?_, ?_, ?_⟩
    · grind
    · rw [Op.targets, htargets]
      exact hsuccessors
    · rw [Op.targets, htargets]
      exact hunmixed

/-! ## Where a block throws -/

theorem throwsAtEnd_of_split {block : Block} {before after : List Op} {op : Op}
    (hops : block.ops = before ++ op :: after) (hthrow : op.canThrow = true)
    (hbefore : ∀ o ∈ before, o.canThrow = false) (hafter : ∀ o ∈ after, o.canThrow = false)
    (hlength : after.length ≤ 1) : Body.throwsAtEnd block = true := by
  have hfind : block.ops.findIdx? Op.canThrow = some before.length := by grind
  have hcount : block.ops.countP Op.canThrow = 1 := by
    rw [hops, List.countP_append, List.countP_cons, if_pos hthrow,
      List.countP_eq_zero.2 (by simpa using hbefore), List.countP_eq_zero.2 (by simpa using hafter)]
  have hend : before.length + 1 = block.ops.length ∨ before.length + 2 = block.ops.length := by
    grind
  unfold Body.throwsAtEnd
  simp only [hfind, hcount]
  simpa using .inr hend

theorem split_at_throw (hdescribes : Layout.Describes src.code src.layout (src.layout.block c))
    {index : Nat} (hthrow : (src.layout.block c).throwing = some index) :
    ∃ before i after, instructionsOf src c = before ++ [i] ++ after ∧ i.canThrow = true ∧
      (∀ j ∈ before, j.canThrow = false) ∧ ∀ j ∈ after, j.isMoveResult = true := by
  obtain ⟨hthrows, hstop, -, -⟩ := hdescribes.some index hthrow
  have hlength := length_instructionsOf hdescribes.stop_le
  have hstart := hthrows.start_le
  have hlt := hthrows.lt_stop
  set k := index - (src.layout.block c).start
  have hklt : k < (instructionsOf src c).length := by omega
  have hat : ∀ j (hj : j < (instructionsOf src c).length),
      src.code.instructions.getD ((src.layout.block c).start + j) .nop =
        (instructionsOf src c)[j] :=
    fun j hj => getD_eq_of_getElem? (getElem?_instructionsOf (List.getElem?_eq_getElem hj)).2
  have hindex : (src.layout.block c).start + k = index := by omega
  have hi : src.code.instructions.getD index .nop = (instructionsOf src c)[k] := by
    rw [← hat k hklt, hindex]
  refine ⟨(instructionsOf src c).take k, (instructionsOf src c)[k],
    (instructionsOf src c).drop (k + 1), ?_, ?_, ?_, ?_⟩
  · rw [List.append_assoc, List.singleton_append, ← List.drop_eq_getElem_cons hklt,
      List.take_append_drop]
  · rw [← hi]
    exact hthrows.throws
  · intro j hj
    obtain ⟨m, hm, rfl⟩ := List.mem_take_iff_getElem.1 hj
    rw [← hat m (by omega)]
    exact hthrows.first _ (by omega) (by omega)
  · intro j hj
    obtain ⟨m, hm, rfl⟩ := List.mem_drop_iff_getElem.1 hj
    rw [Layout.afterThrowing] at hstop
    split at hstop
    · grind
    · omega

theorem throwsAtEnd_of_shape (hsound : Layout.Sound src.code src.layout)
    (hc : c < src.layout.blocks.size) {block : Block}
    (hhandlers : block.handlers = (src.layout.block c).handlers)
    (h : Shape src types st c block.ops) : Body.throwsAtEnd block = true := by
  by_cases hempty : block.handlers = []
  · simp [Body.throwsAtEnd, hempty]
  · have hne : c ≠ 0 := by
      rintro rfl
      rw [hhandlers, hsound.entry] at hempty
      exact hempty rfl
    have hdescribes := hsound.describes c (Nat.pos_of_ne_zero hne) hc
    obtain ⟨index, hindex⟩ : ∃ index, (src.layout.block c).throwing = some index := by
      refine Option.ne_none_iff_exists'.1 fun hnone => hempty ?_
      rw [hhandlers, hdescribes.none hnone]
    obtain ⟨before, i, after, hsplit, hthrow, hbefore, hafter⟩ := split_at_throw hdescribes hindex
    -- in both cases the instruction that throws is all that is left of the stretch behind it
    have hops : ∀ {f f' ops},
        Translates src c st (src.layout.block c).start f (instructionsOf src c) ops f' →
        ∃ ops₁ op, ops = ops₁ ++ [op] ∧ op.canThrow = true ∧ ∀ o ∈ ops₁, o.canThrow = false := by
      intro f f' ops htrans
      rw [hsplit] at htrans
      obtain ⟨ops₁₂, ops₃, f₂, rfl, htrans, htrans₃⟩ := htrans.append
      obtain ⟨ops₁, ops₂, f₁, rfl, htrans₁, htrans₂⟩ := htrans.append
      obtain ⟨op, holds, rfl, hrender⟩ := htrans₂.single (.inr hthrow)
      rw [htrans₃.moveResults hafter, List.append_nil]
      exact ⟨ops₁, op, rfl, hrender.canThrow_eq.trans hthrow, htrans₁.not_throw hbefore⟩
    generalize hblock : block.ops = ops at h
    cases h with
    | entry _ _ _ => exact absurd rfl hne
    | leaves _ htrans _ =>
      obtain ⟨ops₁, op, rfl, hthrow, hbefore⟩ := hops htrans
      exact throwsAtEnd_of_split hblock hthrow hbefore (by simp) (by simp)
    | falls _ htrans _ _ =>
      obtain ⟨ops₁, op, rfl, hthrow, hbefore⟩ := hops htrans
      rw [List.append_assoc, List.singleton_append] at hblock
      exact throwsAtEnd_of_split hblock hthrow hbefore (by simp [Op.canThrow]) (by simp)

theorem noted_of_shape (hsound : Layout.Sound src.code src.layout) (hc : c < src.layout.blocks.size)
    {ops : List Op} (h : Shape src types st c ops) (hthrow : (src.layout.block c).throwing ≠ none) :
    st.beforeThrow ≠ none := by
  obtain ⟨index, hindex⟩ := Option.ne_none_iff_exists'.1 hthrow
  have hnoted : ∀ {f f' ops}, c ≠ 0 →
      Translates src c st (src.layout.block c).start f (instructionsOf src c) ops f' →
      st.beforeThrow ≠ none := by
    intro f f' ops hne htrans
    have hdescribes := hsound.describes c (Nat.pos_of_ne_zero hne) hc
    have hthrows := (hdescribes.some index hindex).1
    have hle := hthrows.start_le
    have hlt := hthrows.lt_stop
    have hget := List.getElem?_eq_getElem (l := instructionsOf src c)
      (i := index - (src.layout.block c).start) (by
        rw [length_instructionsOf hdescribes.stop_le]
        omega)
    refine htrans.noted hget ?_ (by rw [hindex, Nat.add_sub_cancel' hle])
    rw [← getD_eq_of_getElem? (getElem?_instructionsOf hget).2, Nat.add_sub_cancel' hle]
    exact hthrows.throws
  cases h with
  | entry _ _ _ => simp [hsound.entry] at hthrow
  | leaves hne htrans _ => exact hnoted hne htrans
  | falls hne htrans _ _ => exact hnoted hne htrans

/-! ## The body before trivial phis are dropped -/

section Raw

variable (hsound : Layout.Sound src.code src.layout) (h : Complete src types s)
include hsound h

section

variable (hc : c < src.layout.blocks.size)
include hc

theorem Complete.ends :
    ∃ before last, (s.body.block c).ops = before ++ [last] ∧ Ends src c before last :=
  ends_of_shape hsound hc (h.block c hc).shape

theorem Complete.normalSuccessors :
    ∃ before last, (s.body.block c).ops = before ++ [last] ∧ Ends src c before last ∧
      (s.body.block c).normalSuccessors = last.successors := by
  obtain ⟨before, last, hops, hends⟩ := h.ends hsound hc
  refine ⟨before, last, hops, hends, ?_⟩
  rw [Block.normalSuccessors, Block.Terminated.terminator? hops hends.terminator]
  rfl

theorem Complete.mem_successors {t : BlockId} :
    t ∈ (s.body.block c).successors ↔ t ∈ src.layout.successors c := by
  obtain ⟨before, last, -, hends, hnormal⟩ := h.normalSuccessors hsound hc
  rw [hends.successors, Block.successors, hnormal, Block.handlerTargets, h.handlers c hc]
  simp [Op.successors]

theorem Complete.isExceptionalSuccessor (t : BlockId) :
    (s.body.block c).isExceptionalSuccessor t = src.layout.isExceptional c t := by
  obtain ⟨before, last, -, hends, hnormal⟩ := h.normalSuccessors hsound hc
  rw [Bool.eq_iff_iff, Block.isExceptionalSuccessor, Block.isHandlerTarget, Block.handlerTargets,
    h.handlers c hc, hnormal, Layout.isExceptional]
  simp only [Bool.and_eq_true, List.contains_iff_mem, List.mem_map, Bool.not_eq_true',
    List.any_eq_true, beq_iff_eq]
  constructor
  · exact fun ht => ht.1
  · rintro ⟨handler, hh, rfl⟩
    refine ⟨⟨handler, hh, rfl⟩, ?_⟩
    rw [← Bool.not_eq_true, List.contains_iff_mem, Op.successors, List.mem_eraseDups]
    exact hends.unmixed handler hh

theorem Complete.throwsAtEnd : Body.throwsAtEnd (s.body.block c) = true :=
  throwsAtEnd_of_shape hsound hc (h.handlers c hc) (h.block c hc).shape

end

def Entered (s : State) (c : BlockId) (v : Operand) : Prop :=
  (∃ reg, (reg, v) ∈ (blockState s c).atEntry) ∧ v ∉ (s.body.block c).phiDests

omit hsound h in
theorem available_of_inBlock {i : Nat} {v : Operand} (hv : InBlock s c i v) :
    s.body.Available (Entered s) c i v := by
  rcases hv with hv | hv
  · by_cases hphi : v ∈ (s.body.block c).phiDests
    · exact .inr (.inl hphi)
    · exact .inl ⟨hv, hphi⟩
  · exact .inr (.inr hv)

/-- Where an exception leaves a block, the registers from before it count. -/
theorem Complete.available_of_atExit {p : BlockId} {reg : Reg} {v : Operand}
    (hp : p < src.layout.blocks.size) (hexit : AtExit src s p c reg v) :
    s.body.Available (Entered s) p (s.body.exitPosition p c) v := by
  have hentry : (reg, v) ∈ (blockState s p).atEntry →
      s.body.Available (Entered s) p (s.body.exitPosition p c) v := fun hmem =>
    available_of_inBlock (.inl ⟨reg, hmem⟩)
  rcases hexit.2 with hlookup | ⟨-, hmem⟩
  · rw [writtenTowards] at hlookup
    rw [Body.exitPosition]
    simp only [h.isExceptionalSuccessor hsound hp]
    cases hexceptional : src.layout.isExceptional p c with
    | false =>
      rw [hexceptional, if_neg Bool.false_ne_true] at hlookup
      rw [if_neg Bool.false_ne_true]
      exact available_of_inBlock (h.written p _ (Table.mem_of_lookup hlookup))
    | true =>
      rw [hexceptional, if_pos rfl] at hlookup
      rw [if_pos rfl]
      have hhandlers : (s.body.block p).handlers ≠ [] := by
        rw [h.handlers p hp]
        rintro hnil
        simp [Layout.isExceptional, hnil] at hexceptional
      have hthrowing : (src.layout.block p).throwing ≠ none := by
        intro hnone
        have hpos : 0 < p := by
          rcases Nat.eq_zero_or_pos p with rfl | hpos
          · rw [h.handlers 0 hp, hsound.entry] at hhandlers
            exact absurd rfl hhandlers
          · exact hpos
        exact hhandlers ((h.handlers p hp).trans ((hsound.describes p hpos hp).none hnone))
      obtain ⟨regs, hregs⟩ := Option.ne_none_iff_exists'.1
        (noted_of_shape hsound hp (h.block p hp).shape hthrowing)
      obtain ⟨k, op, hop, hthrow, hall⟩ := (h.block p hp).thrown regs hregs
      rw [Block.throwingIndex?_of_throwsAtEnd (h.throwsAtEnd hsound hp) hhandlers hop hthrow]
      rw [hregs, Option.getD_some] at hlookup
      exact available_of_inBlock (hall _ (Table.mem_of_lookup hlookup))
  · exact hentry hmem

theorem Complete.scoped : s.body.Scoped s.body.exitPosition (Entered s) := by
  have hsize := h.blockCount
  constructor
  case entry =>
    rintro v ⟨⟨reg, hmem⟩, hnot⟩
    rcases h.atEntry 0 _ hmem with hphi | ⟨p, hp, -⟩
    · exact hnot hphi
    · simp [preds_entry hsound] at hp
  case edge =>
    intro p hp t ht v hv
    rw [hsize] at hp
    rw [h.mem_successors hsound hp] at ht
    obtain ⟨⟨reg, hmem⟩, hnot⟩ := hv
    rcases h.atEntry t _ hmem with hphi | ⟨q, hq, hexit⟩
    · exact absurd hphi hnot
    · obtain rfl : p = q := by
        have : p ∈ src.layout.preds t := mem_preds.2 ⟨hp, ht⟩
        rwa [hq, List.mem_singleton] at this
      exact h.available_of_atExit hsound hp hexit
  case use =>
    exact fun b _ i op hop v hv => available_of_inBlock (h.uses b i op hop v hv)
  case phi =>
    intro b hb phi hphi e he
    rw [hsize] at hb
    obtain ⟨reg, -, hall⟩ := h.phi b phi hphi
    rw [h.preds b hb] at he
    have hmem := List.of_mem_zip he
    have hexit : AtExit src s e.2 b reg e.1 := by
      obtain ⟨i, hi, rfl⟩ := List.mem_iff_getElem.1 he
      have hi' : i < phi.operands.length ∧ i < (src.layout.preds b).length := by simpa using hi
      simpa using hall.get hi'.2 hi'.1
    exact h.available_of_atExit hsound (mem_preds.1 hmem.2).1 hexit

omit hsound in
theorem Complete.arguments (hc : c < src.layout.blocks.size) {i : Nat} {op : Op}
    (hop : (s.body.block c).ops[i]? = some op) (hargument : op.isArgument = true) :
    c = 0 ∧ ∀ j < i, ((s.body.block c).ops[j]?).any Op.isArgument = true := by
  have hshape := (h.block c hc).shape
  generalize (s.body.block c).ops = ops at hop hshape
  cases hshape with
  | @entry dests target hlength _ htarget =>
    refine ⟨rfl, fun j hj => ?_⟩
    have hi : i < (argumentOps dests).length := by
      by_contra hle
      rw [List.getElem?_append_right (Nat.le_of_not_lt hle)] at hop
      have hmem := List.mem_singleton.1 (List.mem_of_getElem? hop)
      rw [hmem] at hargument
      cases hargument
    rw [List.getElem?_append_left (by omega), List.getElem?_eq_getElem (by omega), Option.any_some]
    simp [argumentOps, Op.isArgument]
  | leaves _ htrans _ =>
    rw [htrans.not_argument op (List.mem_of_getElem? hop)] at hargument
    cases hargument
  | falls _ htrans _ _ =>
    rcases List.mem_append.1 (List.mem_of_getElem? hop) with hmem | hmem
    · rw [htrans.not_argument op hmem] at hargument
      cases hargument
    · rw [List.mem_singleton.1 hmem] at hargument
      cases hargument

theorem Complete.entry_phis : (s.body.block 0).phis = [] := by
  by_contra hne
  have htwo := h.phi_preds 0 hne
  simp [preds_entry hsound] at htwo

theorem Complete.regular : s.body.Regular := by
  have hsize := h.blockCount
  constructor
  case nonempty => rw [hsize]; exact Nat.lt_trans Nat.one_pos hsound.size
  case entry_preds =>
    rw [h.preds 0 (Nat.lt_trans Nat.one_pos hsound.size), preds_entry hsound]
  case terminated =>
    intro b hb
    obtain ⟨before, last, hops, hends⟩ := h.ends hsound (hsize ▸ hb)
    exact ⟨before, last, hops, hends.terminator, hends.inner⟩
  case successors_lt =>
    intro b hb t ht
    rw [hsize] at hb ⊢
    exact (successors_bounds hsound hb t ((h.mem_successors hsound hb).1 ht)).2
  case preds_nodup =>
    intro b hb
    rw [h.preds b (hsize ▸ hb)]
    exact List.nodup_range.filter _
  case mem_preds =>
    intro b hb p
    rw [hsize] at hb ⊢
    rw [h.preds b hb, mem_preds]
    exact and_congr_right fun hp => (h.mem_successors hsound hp).symm
  case reachable =>
    intro b hb
    refine (hsound.reachable b (hsize ▸ hb)).of_successors ?_ fun x y hy => ?_
    · rw [Body.size_graph, Layout.size_graph, hsize]
    · have hx := Digraph.lt_size_of_mem_successors hy
      rw [Layout.size_graph] at hx
      rw [Layout.successors_graph] at hy
      rw [Body.successors_graph, h.mem_successors hsound hx]
      exact hy
  case arguments =>
    exact fun b hb i op hop hargument => h.arguments (hsize ▸ hb) hop hargument
  case caught =>
    intro b hb i op hop hcaught
    rw [hsize] at hb
    obtain ⟨hzero, hne, hall⟩ := (h.block b hb).catches i op hop hcaught
    refine ⟨hzero, ?_⟩
    rw [Body.isHandlerEntry, h.preds b hb]
    simp only [Bool.and_eq_true, Bool.not_eq_true', List.isEmpty_eq_false_iff, List.all_eq_true]
    refine ⟨hne, fun p hp => ?_⟩
    rw [h.isExceptionalSuccessor hsound (mem_preds.1 hp).1]
    exact hall p hp
  case throws_at_end => exact fun b hb => h.throwsAtEnd hsound (hsize ▸ hb)
  case arity =>
    intro b hb phi hphi
    obtain ⟨reg, -, hall⟩ := h.phi b phi hphi
    rw [h.preds b (hsize ▸ hb)]
    exact hall.length_eq.symm
  case defined_nodup => exact h.defined_nodup
  case defined_lt => exact h.defined_lt
  case in_scope =>
    exact ⟨Entered s, (h.scoped hsound).mono fun p t => s.body.exitPosition_le_atEnd p t⟩

theorem Complete.wellFormed : s.body.WellFormed := ⟨h.regular hsound, h.entry_phis hsound⟩

theorem Complete.unmixed : s.body.Unmixed := by
  intro b hb t ht
  have hb : b < src.layout.blocks.size := h.blockCount ▸ hb
  obtain ⟨before, last, -, hends, hnormal⟩ := h.normalSuccessors hsound hb
  rw [Block.handlerTargets, h.handlers b hb] at ht
  obtain ⟨handler, hh, rfl⟩ := List.mem_map.1 ht
  rw [hnormal, Op.successors, List.mem_eraseDups]
  exact hends.unmixed handler hh

theorem Complete.exists_entry :
    ∃ dests target, (s.body.block 0).ops = argumentOps dests ++ [.goto target] ∧
    dests.length = types.length ∧ (blockState s 0).written = argumentRegs dests ∧
      src.layout.blockAt 0 = .ok target := by
  have hshape := (h.block 0 (Nat.lt_trans Nat.one_pos hsound.size)).shape
  generalize (s.body.block 0).ops = ops at hshape ⊢
  cases hshape with
  | entry hlength hwritten hat => exact ⟨_, _, rfl, hlength, hwritten, hat⟩
  | leaves hne _ _ => exact absurd rfl hne
  | falls hne _ _ _ => exact absurd rfl hne

/-- Nothing is there when the entry is entered. -/
theorem Complete.not_mem_atEntry {e : Reg × Operand} : e ∉ (blockState s 0).atEntry := by
  intro hmem
  rcases h.atEntry 0 _ hmem with hphi | ⟨p, hp, -⟩
  · simp [Block.phiDests, (h.wellFormed hsound).entry_phis] at hphi
  · simp [preds_entry hsound] at hp

end Raw

/-! ## The body -/

structure Lifted (types : List ValueType) (body : Body) : Prop where
  wellFormed : body.WellFormed
  unmixed : body.Unmixed
  strict : body.Strict
  entry : ∃ dests target, (body.block 0).ops = argumentOps dests ++ [.goto target] ∧
    dests.length = types.length

variable {body : Body}

theorem lifted_of_complete (hsound : Layout.Sound src.code src.layout) (h : Complete src types s)
    (hrun : removeTrivialPhis s.body = .ok body) : Lifted types body := by
  have hwf := h.wellFormed hsound
  obtain ⟨r, htrivial, -, rfl⟩ := removeTrivialPhis_eq_ok (nodup_phiDests hwf.defined_nodup) hrun
  have hrewritable := htrivial.rewritable hwf
  refine ⟨hrewritable.wellFormed_rewrite hwf.entry_phis, Body.unmixed_rewrite (h.unmixed hsound),
    hrewritable.strict_rewrite ⟨_, h.scoped hsound⟩, ?_⟩
  obtain ⟨dests, target, hops, hlength, -, -⟩ := h.exists_entry hsound
  refine ⟨dests, target, ?_, hlength⟩
  rw [Body.block_rewrite, Block.rewrite]
  simp [hops, argumentOps, Op.mapUses]

end Lift

variable {m : Method}

/-- Code is lifted by filling the blocks of a layout and dropping trivial phis. -/
theorem complete_of_liftCode {code : Code} (h : liftCode m code = .ok body) :
    ∃ layout done, Layout.Sound code layout ∧ Lift.Complete ⟨code, layout⟩ (argumentTypes m) done ∧
      Lift.removeTrivialPhis done.body = .ok body ∧ code.ins = m.argumentCount ∧
        code.ins ≤ code.registers := by
  unfold liftCode at h
  split at h
  · split at h <;> exact absurd h Fallible.throw_bind_ne_ok
  · rename_i hempty
    simp only at h
    split at h
    · exact absurd h Fallible.throw_bind_ne_ok
    · rename_i hregisters
      obtain ⟨layout, hlayout, h⟩ := Fallible.bind_eq_ok.1 h
      obtain ⟨⟨u, done⟩, hfill, h⟩ := Fallible.bind_eq_ok.1 h
      have hsound := Layout.sound_of_ofCode (by simpa using hempty) hlayout
      have hcomplete := Lift.complete_of_fillAll hsound
        (Lift.progress_initial hsound m.id (argumentTypes m)) hfill
      exact ⟨layout, done, hsound, hcomplete, h, by simpa using hregisters⟩

theorem liftCode_of_lift? (h : lift? m = .ok (some body)) :
    ∃ code, m.code = some code ∧ liftCode m code = .ok body := by
  unfold lift? at h
  split at h
  · simp at h
  · split at h
    · simp at h
    · rename_i code hcode
      obtain ⟨found, hfound, heq⟩ := Fallible.map_eq_ok.1 h
      cases heq
      exact ⟨code, hcode, hfound⟩

theorem lifted_of_lift? (h : lift? m = .ok (some body)) : Lift.Lifted (argumentTypes m) body := by
  obtain ⟨code, -, hlift⟩ := liftCode_of_lift? h
  obtain ⟨layout, done, hsound, hcomplete, hremove, -⟩ := complete_of_liftCode hlift
  exact Lift.lifted_of_complete hsound hcomplete hremove

theorem length_argumentTypes (m : Method) : (argumentTypes m).length = m.argumentCount := by
  unfold argumentTypes Method.argumentCount Proto.arity
  split
  · simp
  · simp

end BytecodeOpt.Ssa
