import BytecodeOpt.Proofs.Lift.Layout
import BytecodeOpt.Proofs.Lift.Seal

/-!
# Filling all blocks

The blocks are filled one after the other.  In the end each holds what its instructions stand for,
every block is sealed, and every phi has its operands.
-/

namespace BytecodeOpt.Ssa.Lift

variable {src : Source} {types : List ValueType} {b c : BlockId} {s s' : State}
  {rest : List BlockId} {u : Unit}

/-! ## One block -/

def instructionsOf (src : Source) (b : BlockId) : List Instruction :=
  (src.code.instructions.drop (src.layout.block b).start).take
    ((src.layout.block b).stop - (src.layout.block b).start)

/-- The operations a block gets: arguments in the entry, else what its instructions stand for, and a
jump where they do not end in one. -/
inductive Shape (src : Source) (types : List ValueType) (st : BlockState) :
    BlockId → List Op → Prop where
  | entry {dests : List Operand} {target : BlockId} : dests.length = types.length →
      st.written = argumentRegs dests → src.layout.blockAt 0 = .ok target →
      Shape src types st 0 (argumentOps dests ++ [.goto target])
  | leaves {b : BlockId} {ops : List Op} : b ≠ 0 →
      Translates src b st (src.layout.block b).start {} (instructionsOf src b) ops
        { written := st.written } →
      (instructionsOf src b).getLast?.any Instruction.isBranch = true → Shape src types st b ops
  | falls {b : BlockId} {ops : List Op} {target : BlockId} : b ≠ 0 →
      Translates src b st (src.layout.block b).start {} (instructionsOf src b) ops
        { written := st.written } →
      (instructionsOf src b).getLast?.any Instruction.isBranch = false →
      src.layout.blockAt (src.layout.block b).stop = .ok target →
      Shape src types st b (ops ++ [.goto target])

theorem Shape.mono {st st' : BlockState} {ops : List Op} (h : Shape src types st c ops)
    (hwritten : st'.written = st.written) (hthrow : st'.beforeThrow = st.beforeThrow)
    (hentry : st.atEntry ⊆ st'.atEntry) : Shape src types st' c ops := by
  cases h with
  | entry hlength hregs htarget => exact .entry hlength (hwritten.trans hregs) htarget
  | leaves hne htrans hlast =>
    rw [← hwritten] at htrans
    exact .leaves hne (htrans.mono hentry hthrow) hlast
  | falls hne htrans hlast htarget =>
    rw [← hwritten] at htrans
    exact .falls hne (htrans.mono hentry hthrow) hlast htarget

theorem Translates.noted {st : BlockState} {index : Nat} {f f' : Frame} {is : List Instruction}
    {ops : List Op} (h : Translates src c st index f is ops f') {k : Nat} {i : Instruction}
    (hk : is[k]? = some i) (hi : i.canThrow = true)
    (hthrow : (src.layout.block c).throwing = some (index + k)) : st.beforeThrow ≠ none := by
  induction h generalizing k with
  | nil => simp at hk
  | cons hbecomes _ ih =>
    cases k with
    | zero =>
      obtain rfl := Option.some.inj hk
      cases hbecomes with
      | op _ _ hnote => simp [hnote hthrow]
      | taken | nothing | copy _ => cases hi
    | succ k => exact ih (by simpa using hk) (by rw [hthrow, Nat.add_assoc, Nat.add_comm 1 k])

theorem getElem?_instructionsOf {k : Nat} {i : Instruction}
    (h : (instructionsOf src b)[k]? = some i) :
    (src.layout.block b).start + k < (src.layout.block b).stop ∧
      src.code.instructions[(src.layout.block b).start + k]? = some i := by
  rw [instructionsOf, List.getElem?_take] at h
  split at h
  · grind
  · simp at h

theorem length_instructionsOf (hstop : (src.layout.block b).stop ≤ src.code.instructions.length) :
    (instructionsOf src b).length = (src.layout.block b).stop - (src.layout.block b).start := by
  simp only [instructionsOf, List.length_take, List.length_drop]
  omega

theorem filling_of_fill (hsound : Layout.Sound src.code src.layout) (h : Filling src b s)
    (hops : (s.body.block b).ops = []) (hwritten : (blockState s b).written = [])
    (hrun : (fill src types b).run s = .ok (u, s')) :
    Filling src b s' ∧ Fills b s s' ∧ Shape src types (blockState s' b) b
      (s'.body.block b).ops := by
  have hb := h.readable_self.1
  unfold fill at hrun
  split at hrun
  · subst b
    obtain ⟨hfilling, hfill, dests, target, hdests, hregs, hlength, htarget⟩ :=
      filling_of_fillEntry h hops hwritten hrun
    exact ⟨hfilling, hfill, hdests ▸ .entry hlength hregs htarget⟩
  · rename_i hne
    have hdescribes := hsound.describes b (Nat.pos_of_ne_zero hne) hb
    rw [run_bind_eq_ok] at hrun
    obtain ⟨_, s₁, hfrom, hrun⟩ := hrun
    have hnote : ∀ k i, (instructionsOf src b)[k]? = some i →
        (src.layout.block b).throwing = some ((src.layout.block b).start + k) →
        i.canThrow = true := by
      intro k i hi hthrow
      have hthrows := (hdescribes.some _ hthrow).1.throws
      rwa [List.getD_eq_getElem?_getD, (getElem?_instructionsOf hi).2] at hthrows
    have hnone : ∀ dest, (none : Option Reg) = some dest →
        (instructionsOf src b).head? = some (.moveResult dest) := by simp
    obtain ⟨hfilling₁, hfill₁, ⟨new, hnew, htrans⟩, -⟩ := filling_of_fillFrom h hnone hnote hfrom
    rw [hops, List.nil_append] at hnew
    rw [hwritten] at htrans
    split at hrun
    · rename_i hlast
      simp only [run_bind_eq_ok, run_lift_eq_ok, run_emit_eq_ok] at hrun
      obtain ⟨target, s₂, ⟨htarget, rfl⟩, rfl⟩ := hrun
      obtain ⟨hfilling, happ⟩ := filling_of_goto hfilling₁ target
      refine ⟨hfilling, hfill₁.trans happ.fills, ?_⟩
      have hshape : Shape src types (blockState s₂ b) b (new ++ [.goto target]) :=
        .falls hne htrans (by simpa [instructionsOf] using hlast) htarget
      rw [happ.ops_self hfilling₁.lt_blockCount, hnew, happ.state]
      split <;> exact hshape
    · rename_i hlast
      rw [run_pure_eq_ok] at hrun
      obtain ⟨-, rfl⟩ := hrun
      exact ⟨hfilling₁, hfill₁, hnew ▸ .leaves hne htrans (by simpa [instructionsOf] using hlast)⟩

/-! ## All blocks -/

structure Filled (src : Source) (types : List ValueType) (s : State) (c : BlockId) : Prop where
  shape : Shape src types (blockState s c) c (s.body.block c).ops
  thrown : Thrown s c
  catches : Catches src s c

theorem Filled.evolve (h : Filled src types s c) (hevolves : Evolves s s')
    (hfilled : (blockState s c).isFilled = true) : Filled src types s' c := by
  obtain ⟨-, hops, hwritten, hbefore⟩ := hevolves.filled c hfilled
  refine ⟨?_, h.thrown.grow ⟨[], by simp [hops]⟩ hbefore (hevolves.atEntry c), ?_⟩
  · rw [hops]
    exact h.shape.mono hwritten hbefore (hevolves.atEntry c)
  · simpa only [Catches, hops] using h.catches

/-- The state between two blocks, with the blocks still to come. -/
structure Progress (src : Source) (types : List ValueType) (rest : List BlockId) (s : State) : Prop
    extends Coded src s where
  done : ∀ c, (blockState s c).isFilled = true → Filled src types s c
  waiting : ∀ c, (blockState s c).isFilled = false → (s.body.block c).ops = [] ∧
    (blockState s c).written = [] ∧ (blockState s c).beforeThrow = none
  ahead : ∀ c ∈ rest, (blockState s c).isFilled = false
  behind : ∀ c < src.layout.blocks.size, c ∈ rest ∨ (blockState s c).isFilled = true

theorem Progress.of_seals (h : Progress src types rest s) (hcoded : Coded src s')
    (hseals : Seals s s') :
    Progress src types rest s' := by
  refine { hcoded with done := ?_, waiting := ?_, ahead := ?_, behind := ?_ }
  · intro c hc
    rw [hseals.isFilled c] at hc
    exact (h.done c hc).evolve hseals.toEvolves hc
  · intro c hc
    rw [hseals.isFilled c] at hc
    rw [hseals.ops c, hseals.written c, hseals.beforeThrow c]
    exact h.waiting c hc
  · intro c hc
    rw [hseals.isFilled c]
    exact h.ahead c hc
  · intro c hc
    rw [hseals.isFilled c]
    exact h.behind c hc

def markFilled (s : State) (b : BlockId) : State :=
  { s with blocks := s.blocks.modify b fun st => { st with isFilled := true } }

theorem blockState_markFilled (s : State) (b c : BlockId) :
    blockState (markFilled s b) c =
      if b = c ∧ c < s.blocks.size then { blockState s c with isFilled := true }
      else blockState s c :=
  blockState_modify b c _ s.body

theorem Filling.markFilled (h : Filling src b s) : Coded src (markFilled s b) := by
  have hfields : ∀ c, (blockState (Lift.markFilled s b) c).atEntry = (blockState s c).atEntry ∧
      (blockState (Lift.markFilled s b) c).openPhis = (blockState s c).openPhis ∧
      (blockState (Lift.markFilled s b) c).written = (blockState s c).written ∧
      (blockState (Lift.markFilled s b) c).isSealed = (blockState s c).isSealed ∧
      ((blockState s c).isFilled = true →
        (blockState (Lift.markFilled s b) c).isFilled = true) := by
    intro c
    rw [blockState_markFilled]
    split <;> simp
  have hkept : Kept s (Lift.markFilled s b) := {
    size := by simp [Lift.markFilled]
    blockCount := rfl
    phis := fun _ => rfl
    atEntry := fun c => (hfields c).1
    openPhis := fun c e he => ⟨(hfields c).2.1 ▸ he, (hfields c).2.2.2.1⟩
    filled := fun c hc => by
      rw [blockState_markFilled]
      split <;> exact ⟨by simp [hc], rfl, rfl⟩ }
  have hinv : Inv src (Lift.markFilled s b) := by
    refine h.toInv.of_kept hkept ?_ ?_ h.defined_nodup h.defined_lt
    · intro c hc p hp
      rw [(hfields c).2.2.2.1] at hc
      exact (hfields p).2.2.2.2 (h.filled c hc p hp)
    · intro c hc
      rw [blockState_markFilled] at hc
      rw [Readable, (hfields c).2.2.2.1]
      split at hc
      · rename_i hbc
        exact hbc.1 ▸ h.readable_self
      · exact h.readable c hc
  refine h.of_same hinv (fun _ => rfl) (fun _ => rfl) (fun _ => rfl) (fun c => (hfields c).2.2.1)
    (fun c => ?_) fun c v hv => ?_
  · rw [(hfields c).1]
    exact List.Subset.refl _
  · rw [(hfields c).2.1]
    exact h.settled c v hv

theorem Progress.filling (h : Progress src types rest s) (hreadable : Readable src s b)
    (hunfilled : (blockState s b).isFilled = false) : Filling src b s := by
  obtain ⟨hops, -, hbefore⟩ := h.waiting b hunfilled
  refine {
    h.toCoded with readable_self := hreadable, unfilled := hunfilled, thrown := ?_, catches := ?_ }
  · intro regs hregs
    simp [hbefore] at hregs
  · intro k op hop
    simp [hops] at hop

theorem Progress.fill (hsound : Layout.Sound src.code src.layout)
    (h : Progress src types (b :: rest) s)
    (hnodup : (b :: rest).Nodup) (hreadable : Readable src s b)
    (hrun : (fill src types b).run s = .ok (u, s')) :
    Progress src types rest (markFilled s' b) := by
  have hunfilled := h.ahead b (by simp)
  obtain ⟨hops, hwritten, -⟩ := h.waiting b hunfilled
  obtain ⟨hfilling, hfill, hshape⟩ := filling_of_fill hsound (h.filling hreadable hunfilled)
    hops hwritten hrun
  have hevolves := Evolves.of_fills hfill hunfilled
  have hb : b < s'.blocks.size := by rw [hfilling.size]; exact hreadable.1
  have hother : ∀ c, c ≠ b → blockState (markFilled s' b) c = blockState s' c := fun c hc => by
    rw [blockState_markFilled, if_neg fun h => hc h.1.symm]
  have hself : blockState (markFilled s' b) b = { blockState s' b with isFilled := true } := by
    rw [blockState_markFilled, if_pos ⟨rfl, hb⟩]
  have hfilled : ∀ c, c ≠ b →
      (blockState (markFilled s' b) c).isFilled = (blockState s c).isFilled := fun c hc => by
    rw [hother c hc, hfill.isFilled c]
  refine { hfilling.markFilled with done := ?_, waiting := ?_, ahead := ?_, behind := ?_ }
  · intro c hc
    by_cases hbc : c = b
    · subst hbc
      refine ⟨?_, hfilling.thrown.grow ⟨[], (List.append_nil _).symm⟩ (by rw [hself]) ?_,
        hfilling.catches⟩
      · rw [hself]
        exact hshape.mono rfl rfl (List.Subset.refl _)
      · grind
    · rw [hfilled c hbc] at hc
      have hold := (h.done c hc).evolve hevolves hc
      refine ⟨?_, hold.thrown.grow ⟨[], (List.append_nil _).symm⟩ (by rw [hother c hbc]) ?_,
        hold.catches⟩
      · rw [hother c hbc]
        exact hold.shape
      · grind
  · intro c hc
    have hbc : c ≠ b := by grind
    rw [hfilled c hbc] at hc
    obtain ⟨hops, hwritten, hbefore⟩ := hfill.other c hbc
    rw [hother c hbc, hwritten, hbefore]
    exact ⟨hops.trans (h.waiting c hc).1, (h.waiting c hc).2⟩
  · intro c hc
    have hbc : c ≠ b := fun heq => (List.nodup_cons.1 hnodup).1 (heq ▸ hc)
    rw [hfilled c hbc]
    exact h.ahead c (by simp [hc])
  · intro c hc
    by_cases hbc : c = b
    · grind
    · rw [hfilled c hbc]
      exact (h.behind c hc).imp_left fun hmem => (List.mem_cons.1 hmem).resolve_left hbc

theorem Progress.trySeal (h : Progress src types rest s) (hb : b < src.layout.blocks.size)
    (hrun : (trySeal src b).run s = .ok (u, s')) :
    Progress src types rest s' ∧ ((blockState s' b).isSealed = true ∨
      ∃ p ∈ src.layout.preds b, (blockState s' p).isFilled = false) := by
  obtain ⟨hcoded, hseals, hsealed⟩ := coded_of_trySeal h.toCoded hb hrun
  exact ⟨h.of_seals hcoded hseals, hsealed⟩

theorem Progress.trySealAll {u : PUnit} (h : Progress src types rest s) {nexts : List BlockId}
    (hnexts : ∀ n ∈ nexts, n < src.layout.blocks.size)
    (hrun : (forIn nexts PUnit.unit fun next (_ : PUnit) => do
      Lift.trySeal src next
      pure (ForInStep.yield PUnit.unit)).run s = .ok (u, s')) : Progress src types rest s' := by
  refine (run_forIn_eq_ok (fun nexts s => (∀ n ∈ nexts, n < src.layout.blocks.size) ∧
    Progress src types rest s) ?_ ⟨hnexts, h⟩ hrun).2
  rintro next more s₁ r s₂ ⟨hmore, hprogress⟩ hstep
  simp only [run_bind_eq_ok, run_pure_eq_ok] at hstep
  obtain ⟨_, _, hseal, rfl, rfl⟩ := hstep
  exact ⟨rfl, fun n hn => hmore n (by simp [hn]),
    (hprogress.trySeal (hmore next (by simp)) hseal).1⟩

/-- The state after all blocks: what each block does is known, and so are the operands of its
phis. -/
structure Complete (src : Source) (types : List ValueType) (s : State) :
    Prop extends Coded src s where
  block : ∀ c < src.layout.blocks.size, Filled src types s c
  phi : ∀ c, ∀ phi ∈ (s.body.block c).phis, ∃ reg, (reg, phi.dest) ∈ (blockState s c).atEntry ∧
    List.Forall₂ (fun p v => AtExit src s p c reg v) (src.layout.preds c) phi.operands

theorem Progress.complete (h : Progress src types [] s)
    (hsealed : ∀ c < src.layout.blocks.size, (blockState s c).isSealed = true) :
    Complete src types s := by
  refine { h.toCoded with block := ?_, phi := ?_ }
  · exact fun c hc => h.done c ((h.behind c hc).resolve_left (by simp))
  · intro c phi hphi
    refine (h.operands c phi hphi).resolve_left fun hnil => ?_
    obtain ⟨reg, hmem⟩ := h.settled c phi.dest ⟨phi, hphi, rfl, hnil⟩
    have hopen := (h.openPhis c _ hmem).2.2
    rw [hsealed c (h.blockCount ▸ Body.lt_blockCount_of_mem_phis hphi)] at hopen
    cases hopen

section

variable (hsound : Layout.Sound src.code src.layout)
include hsound

theorem successors_bounds (hb : b < src.layout.blocks.size) :
    ∀ n ∈ src.layout.successors b, 0 < n ∧ n < src.layout.blocks.size := by
  intro n hn
  rcases Nat.eq_zero_or_pos b with rfl | hpos
  · rw [Layout.successors, hsound.entry] at hn
    rw [List.mem_singleton.1 hn]
    exact ⟨Nat.one_pos, hsound.size⟩
  · have hdescribes := hsound.describes b hpos hb
    obtain ⟨next, hnext, hsuccs, -⟩ := hdescribes.next
    rw [Layout.successors, hsuccs, List.mem_eraseDups, List.mem_append, List.mem_map] at hn
    rcases hn with hn | ⟨handler, hh, rfl⟩
    · obtain ⟨t, -, ht⟩ := Fallible.exists_left_of_forall₂ hnext hn
      exact ⟨(Layout.blockAt_eq_ok ht).1, (Layout.blockAt_eq_ok ht).2.1⟩
    · cases hthrow : (src.layout.block b).throwing with
      | none =>
        rw [hdescribes.none hthrow] at hh
        simp at hh
      | some index =>
        obtain ⟨-, -, -, hhandlers⟩ := hdescribes.some index hthrow
        obtain ⟨h', -, hat, -⟩ := Fallible.exists_left_of_forall₂ hhandlers hh
        exact ⟨(Layout.blockAt_eq_ok hat).1, (Layout.blockAt_eq_ok hat).2.1⟩

theorem preds_entry : src.layout.preds 0 = [] := by
  refine List.eq_nil_iff_forall_not_mem.2 fun p hp => ?_
  obtain ⟨hlt, hmem⟩ := mem_preds.1 hp
  exact absurd (successors_bounds hsound hlt 0 hmem).1 (Nat.lt_irrefl 0)

/-- A block whose turn it is has a predecessor that is filled, so one that waits for another has
two. -/
theorem Progress.readable_next {rest before : List BlockId}
    (h : Progress src types (b :: rest) s)
    (horder : src.layout.graph.reversePostorder 0 = before ++ b :: rest)
    (hb : b < src.layout.blocks.size)
    (hsealed : (blockState s b).isSealed = true ∨
      ∃ p ∈ src.layout.preds b, (blockState s p).isFilled = false) : Readable src s b := by
  refine ⟨hb, hsealed.imp_right ?_⟩
  rintro ⟨p, hp, hunfilled⟩
  rcases Digraph.led_reversePostorder _ 0 before b rest horder with rfl | ⟨q, hq, hmem⟩
  · simp [preds_entry hsound] at hp
  · have hnodup := Digraph.nodup_reversePostorder src.layout.graph 0
    rw [horder, List.nodup_append] at hnodup
    have hqlt : q < src.layout.blocks.size := by
      rw [← Layout.size_graph]
      exact Digraph.lt_size_of_mem_successors hmem
    have hqfilled : (blockState s q).isFilled = true :=
      (h.behind q hqlt).resolve_left fun hc => hnodup.2.2 q hq q hc rfl
    have hqpred : q ∈ src.layout.preds b := by
      rw [Layout.successors_graph] at hmem
      exact mem_preds.2 ⟨hqlt, hmem⟩
    have hne : p ≠ q := by grind
    rcases hpreds : src.layout.preds b with _ | ⟨x, _ | ⟨y, more⟩⟩
    · simp [hpreds] at hp
    · grind
    · simp

def fillRound (src : Source) (types : List ValueType) (b : BlockId) : LiftM (ForInStep PUnit) := do
  trySeal src b
  fill src types b
  modifyState b fun st => { st with isFilled := true }
  for next in src.layout.successors b do
    trySeal src next
  pure (ForInStep.yield PUnit.unit)

theorem complete_of_fillAll (h : Progress src types (src.layout.graph.reversePostorder 0) s)
    (hrun : (fillAll src types).run s = .ok (u, s')) : Complete src types s' := by
  unfold fillAll at hrun
  rw [run_bind_eq_ok] at hrun
  obtain ⟨_, s₁, hloop, hrun⟩ := hrun
  have hround : ∀ {b rest s r s'},
      ((∃ before, src.layout.graph.reversePostorder 0 = before ++ b :: rest) ∧
        Progress src types (b :: rest) s) → (fillRound src types b).run s = .ok (r, s') →
      r = .yield ⟨⟩ ∧ (∃ before, src.layout.graph.reversePostorder 0 = before ++ rest) ∧
        Progress src types rest s' := by
    rintro b rest s r s' ⟨⟨before, horder⟩, hprogress⟩ hround
    simp only [fillRound, run_bind_eq_ok, run_modifyState, run_pure_eq_ok, Except.ok.injEq,
      Prod.mk.injEq] at hround
    obtain ⟨_, s₂, hseal, _, s₃, hfill, _, _, ⟨-, rfl⟩, _, _, hnexts, rfl, rfl⟩ := hround
    have hmem : b ∈ src.layout.graph.reversePostorder 0 := by simp [horder]
    have hb : b < src.layout.blocks.size := by
      rw [← Layout.size_graph]
      exact Digraph.lt_size_of_mem_reversePostorder hmem
    have hnodup := Digraph.nodup_reversePostorder src.layout.graph 0
    rw [horder, List.nodup_append] at hnodup
    obtain ⟨hsealed, hwaits⟩ := hprogress.trySeal hb hseal
    have hfilled :=
      hsealed.fill hsound hnodup.2.1 (hsealed.readable_next hsound horder hb hwaits) hfill
    exact ⟨rfl, ⟨before ++ [b], by simpa using horder⟩,
      hfilled.trySealAll (fun n hn => (successors_bounds hsound hb n hn).2) hnexts⟩
  have hprogress := (run_forIn_eq_ok (fun rest s =>
    (∃ before, src.layout.graph.reversePostorder 0 = before ++ rest) ∧ Progress src types rest s)
    hround ⟨⟨[], rfl⟩, h⟩ hloop).2
  rw [run_bind_eq_ok] at hrun
  obtain ⟨_, _, hget, hrun⟩ := hrun
  cases hget
  split at hrun
  · rw [run_throw] at hrun
    cases hrun
  · rename_i hfind
    rw [run_pure_eq_ok] at hrun
    obtain ⟨-, rfl⟩ := hrun
    refine hprogress.complete fun c hc => ?_
    rw [← hprogress.size] at hc
    have := Array.findIdx?_eq_none_iff.1 hfind s'.blocks[c] (Array.getElem_mem hc)
    simpa [blockState, Array.getD_eq_getD_getElem?, hc] using this

end

/-! ## The first state -/

def initial (method : MethodId) (layout : Layout) : State :=
  { body := frame method layout, blocks := Array.replicate layout.blocks.size {} }

theorem block_frame (method : MethodId) (layout : Layout) (c : BlockId) :
    (frame method layout).block c =
      if c < layout.blocks.size then
        { preds := layout.preds c, handlers := (layout.block c).handlers }
      else {} := by
  simp only [frame, Body.block, Layout.blockIds, Array.getD_eq_getD_getElem?, List.getElem?_toArray,
    List.getElem?_map]
  by_cases hc : c < layout.blocks.size
  · simp [hc]
  · simp [hc]

theorem blockState_initial (method : MethodId) (layout : Layout) (c : BlockId) :
    blockState (initial method layout) c = {} := by
  simp only [blockState, initial, Table.getD_replicate]
  split <;> rfl

theorem progress_initial (hsound : Layout.Sound src.code src.layout) (method : MethodId)
    (types : List ValueType) :
    Progress src types (src.layout.graph.reversePostorder 0) (initial method src.layout) := by
  have hstate := blockState_initial method src.layout
  have hblock : ∀ c, ((initial method src.layout).body.block c).phis = [] ∧
      ((initial method src.layout).body.block c).ops = [] := by
    intro c
    change ((frame method src.layout).block c).phis = [] ∧
      ((frame method src.layout).block c).ops = []
    rw [block_frame]
    split <;> exact ⟨rfl, rfl⟩
  have hdefined : (initial method src.layout).body.definedValues = [] := by
    refine List.flatMap_eq_nil_iff.2 fun c _ => ?_
    simp [Block.definedValues, Block.phiDests, Block.opDests, hblock c]
  have hmem : ∀ c < src.layout.blocks.size, c ∈ src.layout.graph.reversePostorder 0 := fun c hc =>
    Digraph.mem_reversePostorder.2 (hsound.reachable c hc)
  constructor
  case toCoded =>
    constructor
    case toInv =>
      constructor
      case size => simp [initial]
      case blockCount => simp [initial, frame, Body.blockCount, Layout.blockIds]
      case defined_nodup => simp [hdefined]
      case defined_lt => simp [hdefined]
      all_goals simp [hstate, hblock, Block.phiDests]
    case preds =>
      intro c hc
      change ((frame method src.layout).block c).preds = _
      rw [block_frame, if_pos hc]
    case handlers =>
      intro c hc
      change ((frame method src.layout).block c).handlers = _
      rw [block_frame, if_pos hc]
    all_goals simp [hstate, hblock, Unfinished]
  case behind => exact fun c hc => .inl (hmem c hc)
  all_goals simp [hstate, hblock]

end BytecodeOpt.Ssa.Lift
