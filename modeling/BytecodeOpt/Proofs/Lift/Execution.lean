import BytecodeOpt.Proofs.Lift.Lifted

/-!
# Running what was lifted

Register code and the blocks it is lifted to run side by side.  Instructions that only move values
have no counterpart in the blocks, and the jumps from a block to the one behind it have none in the
code; all else happens on both sides at once.  What carries the argument from one instruction to the
next is that whatever is known to be in a register is what the value holds that stands for it.
-/

namespace BytecodeOpt.Ssa.Lift

open Execution

variable {V W : Type} {host : Host V W} {args : Nat → V} {w : W} {m m' : Memory V} {src : Source}
  {types : List ValueType} {s : State} {c t : BlockId} {pc k : Nat}

/-! ## Registers and values -/

/-- What is in a register, a result that is still to be moved there included. -/
def Frame.read (f : Frame) (m : Memory V) (reg : Reg) : V :=
  if f.pending = some reg then m.result else m.store reg

structure Agrees (st : BlockState) (f : Frame) (m m' : Memory V) : Prop where
  caught : m.caught = m'.caught
  holds : ∀ reg v, Holds f.written st.atEntry reg v → f.read m reg = m'.store v

namespace Agrees

variable {st : BlockState} {regs : Registers}

theorem store (h : Agrees st ⟨regs, none⟩ m m') {reg : Reg} {v : Operand}
    (hv : Holds regs st.atEntry reg v) : m.store reg = m'.store v :=
  h.holds reg v hv

theorem taken {dest : Reg} (h : Agrees st ⟨regs, some dest⟩ m m') :
    Agrees st ⟨regs, none⟩ (m.after (.result dest) (some m.result)) m' := by
  refine ⟨by simpa using h.caught, fun reg v hv => ?_⟩
  have hread := h.holds reg v hv
  rw [m.after_of_dest rfl]
  by_cases heq : reg = dest
  · subst heq
    simpa [Frame.read] using hread
  · simpa [Frame.read, heq, Ne.symm heq] using hread

theorem copy {dest source : Reg} {v : Operand} (h : Agrees st ⟨regs, none⟩ m m')
    (hv : Holds regs st.atEntry source v) :
    Agrees st ⟨(dest, v) :: regs, none⟩ (m.after (.copy dest source) (some (m.store source)))
      m' := by
  refine ⟨by simpa using h.caught, fun reg u hu => ?_⟩
  rw [m.after_of_dest rfl]
  rcases holds_cons hu with ⟨rfl, rfl⟩ | ⟨hne, hu⟩
  · simpa [Frame.read] using h.store hv
  · simpa [Frame.read, hne] using h.store hu

theorem receive {e e' : Effect} {new : Registers} {pending : Option Reg} {value : Option V}
    (h : Agrees st ⟨regs, none⟩ m m') (hreceives : Receives e e'.dest? new pending)
    (hvalue : value = none → e'.dest? = none)
    (hfresh : ∀ v, e'.dest? = some v → ∀ reg u, Holds regs st.atEntry reg u → u ≠ v) :
    Agrees st ⟨new ++ regs, pending⟩ (m.after e value) (m'.after e' value) := by
  refine ⟨by simpa using h.caught, fun reg u hu => ?_⟩
  generalize hdest' : e'.dest? = dest' at hreceives
  cases hreceives with
  | nowhere hdest =>
    simp only [Frame.read, m.store_after_of_no_dest hdest, m'.store_after_of_no_dest hdest',
      reduceCtorEq, if_false]
    exact h.store hu
  | @own dest v hdest =>
    obtain ⟨x, rfl⟩ : ∃ x, value = some x :=
      Option.ne_none_iff_exists'.1 fun hnone => by simp [hvalue hnone] at hdest'
    rw [m.after_of_dest hdest, m'.after_of_dest hdest']
    rcases holds_cons hu with ⟨rfl, rfl⟩ | ⟨hne, hu⟩
    · simp [Frame.read]
    · simpa [Frame.read, hne, hfresh v hdest' reg u hu] using h.store hu
  | @next dest v hdest =>
    obtain ⟨x, rfl⟩ : ∃ x, value = some x :=
      Option.ne_none_iff_exists'.1 fun hnone => by simp [hvalue hnone] at hdest'
    rw [m.after_of_no_dest hdest, m'.after_of_dest hdest']
    rcases holds_cons hu with ⟨rfl, rfl⟩ | ⟨hne, hu⟩
    · simp [Frame.read]
    · simpa [Frame.read, Ne.symm hne, hfresh v hdest' reg u hu] using h.store hu

end Agrees

/-! ## Leaving a block -/

section Exits

variable (hsound : Layout.Sound src.code src.layout) (h : Complete src types s)
include hsound h

theorem Complete.normal_exit (hc : c < src.layout.blocks.size) {op : Op}
    (hop : (s.body.block c).ops[k]? = some op)
    (hterminator : op.isTerminator = true) (ht : t ∈ op.targets) :
    c ∈ src.layout.preds t ∧ writtenTowards src s c t = (blockState s c).written := by
  obtain ⟨before, last, hops, hends⟩ := h.ends hsound hc
  have hmem := List.mem_of_getElem? hop
  rw [hops, List.mem_append] at hmem
  obtain rfl : op = last := by
    rcases hmem with hmem | hmem
    · simp [hends.inner op hmem] at hterminator
    · exact List.mem_singleton.1 hmem
  refine ⟨mem_preds.2 ⟨hc, ?_⟩, ?_⟩
  · rw [hends.successors, List.mem_eraseDups]
    exact List.mem_append_left _ ht
  · have hnot : src.layout.isExceptional c t = false := by
      simp only [Layout.isExceptional, List.any_eq_false, beq_iff_eq]
      rintro handler hh rfl
      exact hends.unmixed handler hh ht
    simp [writtenTowards, hnot]

/-- Where an exception goes to a handler, the registers are those from before the instruction. -/
theorem Complete.exceptional_exit (hc : c < src.layout.blocks.size) {handler : Handler}
    (hh : handler ∈ (src.layout.block c).handlers) {regs : Registers}
    (hregs : (blockState s c).beforeThrow = some regs) :
    c ∈ src.layout.preds handler.target ∧ writtenTowards src s c handler.target = regs := by
  obtain ⟨before, last, -, hends⟩ := h.ends hsound hc
  refine ⟨mem_preds.2 ⟨hc, ?_⟩, ?_⟩
  · rw [hends.successors, List.mem_eraseDups]
    exact List.mem_append_right _ (List.mem_map_of_mem hh)
  · have hexceptional : src.layout.isExceptional c handler.target = true :=
      List.any_eq_true.2 ⟨handler, hh, by simp⟩
    simp [writtenTowards, hexceptional, hregs]

/-- What is known where a block is entered was known on each edge into it, of the value that is
picked there. -/
theorem Complete.holds_picks (hedge : c ∈ src.layout.preds t) {reg : Reg} {v : Operand}
    (hv : (reg, v) ∈ (blockState s t).atEntry) :
    Holds (writtenTowards src s c t) (blockState s c).atEntry reg (s.body.picks c t v) := by
  obtain ⟨hc, hmem⟩ := mem_preds.1 hedge
  have ht := (successors_bounds hsound hc t hmem).2
  have hwf := h.wellFormed hsound
  have htcount : t < s.body.blockCount := h.blockCount ▸ ht
  by_cases hphi : v ∈ (s.body.block t).phiDests
  · obtain ⟨phi, hmemPhi, rfl⟩ := List.mem_map.1 hphi
    obtain ⟨reg', hentry, hall⟩ := h.phi t phi hmemPhi
    -- the phi stands for one register only
    obtain rfl : reg' = reg := congrArg Prod.fst (h.owner t _ hentry _ hv rfl hphi)
    have hpreds := h.preds t ht
    obtain ⟨o, ho⟩ := Block.incoming?_of_mem (hpreds ▸ hedge) (hwf.arity t htcount phi hmemPhi)
    have hzip := Block.mem_zip_of_incoming? ho
    rw [hpreds] at hzip
    rw [Body.picks_of_phi (Body.nodup_phiDests_block hwf.defined_nodup htcount) hmemPhi ho]
    exact (List.forall₂_zip hall.flip hzip).2
  · obtain ⟨p, hp, hexit⟩ := (h.atEntry t _ hv).resolve_left hphi
    obtain rfl : c = p := by rwa [hp, List.mem_singleton] at hedge
    rw [Body.picks_of_not_phi hphi]
    exact hexit.2

end Exits

/-! ## Places -/

/-- How a block goes on behind its instructions: not at all if the last one decides that, else with
a jump. -/
inductive Closes (src : Source) (c : BlockId) : List Op → Prop where
  | leaves : (instructionsOf src c).getLast?.any Instruction.isBranch = true → Closes src c []
  | falls {target : BlockId} : src.layout.blockAt (src.layout.block c).stop = .ok target →
      Closes src c [.goto target]

/-- A place in the code and the one in a block that belongs to it: what is still to come there is
what becomes of what is still to come here. -/
structure Standing (src : Source) (s : State) (c : BlockId) (pc k : Nat) (f : Frame)
    (rest : List Instruction) (ops tail : List Op) : Prop where
  inside : c < src.layout.blocks.size
  inner : c ≠ 0
  here : ∃ done, instructionsOf src c = done ++ rest ∧ pc = (src.layout.block c).start + done.length
  there : ∃ done, (s.body.block c).ops = done ++ (ops ++ tail) ∧ k = done.length
  translates : Translates src c (blockState s c) pc f rest ops
    { written := (blockState s c).written }
  known : ∀ e ∈ f.written, InBlock s c k e.2
  closes : Closes src c tail
  falls : rest = [] → (instructionsOf src c).getLast?.any Instruction.isBranch = false

namespace Standing

variable {f f₁ : Frame} {i : Instruction} {rest : List Instruction} {new ops tail : List Op}

theorem instruction (h : Standing src s c pc k f (i :: rest) ops tail) :
    (src.layout.block c).start ≤ pc ∧ pc < (src.layout.block c).stop ∧
      src.code.instructions[pc]? = some i := by
  obtain ⟨done, hsplit, rfl⟩ := h.here
  have hget : (instructionsOf src c)[done.length]? = some i := by simp [hsplit]
  exact ⟨Nat.le_add_right _ _, getElem?_instructionsOf hget⟩

theorem operation {op : Op} (h : Standing src s c pc k f rest (op :: ops) tail) :
    (s.body.block c).ops[k]? = some op := by
  obtain ⟨done, hops, rfl⟩ := h.there
  simp [hops]

theorem inBlock_of_holds (h : Standing src s c pc k f rest ops tail) {reg : Reg} {v : Operand}
    (hv : Holds f.written (blockState s c).atEntry reg v) : InBlock s c k v := by
  rcases hv.mem with hmem | hmem
  · exact h.known _ hmem
  · exact .inl ⟨reg, hmem⟩

theorem next (h : Standing src s c pc k f (i :: rest) (new ++ ops) tail)
    (hbecomes : Becomes src c (blockState s c) pc f i new f₁)
    (hrest : Translates src c (blockState s c) (pc + 1) f₁ rest ops
      { written := (blockState s c).written })
    (hi : i.isBranch = false) : Standing src s c (pc + 1) (k + new.length) f₁ rest ops tail := by
  obtain ⟨done, hsplit, hpc⟩ := h.here
  obtain ⟨before, hops, hk⟩ := h.there
  refine ⟨h.inside, h.inner, ⟨done ++ [i], by simp [hsplit], ?_⟩,
    ⟨before ++ new, by simp [hops], ?_⟩,
    hrest, ?_, h.closes, ?_⟩
  · rw [List.length_append, List.length_singleton, hpc, Nat.add_assoc]
  · rw [List.length_append, hk]
  · intro e he
    cases hbecomes with
    | taken | nothing => exact h.known e he
    | copy hv =>
      rcases List.mem_cons.1 he with rfl | he
      · exact h.inBlock_of_holds hv
      · exact h.known e he
    | @op regs added _ op pending hrender hreceives _ =>
      rcases List.mem_append.1 he with hadded | hold
      · have hop : (s.body.block c).ops[k]? = some op := by simp [hops, hk]
        generalize hdest : op.dest? = dest at hreceives
        cases hreceives with
        | nowhere _ => cases hadded
        | own _ | next _ =>
          obtain rfl := List.mem_singleton.1 hadded
          exact .inr (Block.mem_destsBefore.2 ⟨k, op, Nat.lt_succ_self k, hop, hdest⟩)
      · exact (h.known e hold).le (Nat.le_add_right _ _)
  · grind

theorem jump (hsound : Layout.Sound src.code src.layout) (h : Standing src s c pc k f [] ops tail) :
    ∃ target, (s.body.block c).ops[k]? = some (.goto target) ∧ src.layout.blockAt pc =
      .ok target := by
  have hdescribes := hsound.describes c (Nat.pos_of_ne_zero h.inner) h.inside
  obtain ⟨done, hsplit, hpc⟩ := h.here
  obtain ⟨before, hops, rfl⟩ := h.there
  have htrans := h.translates
  cases htrans
  have hstop : pc = (src.layout.block c).stop := by
    have hlength := length_instructionsOf hdescribes.stop_le
    rw [hsplit, List.append_nil] at hlength
    have := hdescribes.start_lt
    omega
  have hcloses := h.closes
  cases hcloses with
  | leaves hlast => simp [h.falls rfl] at hlast
  | @falls target htarget => exact ⟨target, by simp [hops], by rw [hstop]; exact htarget⟩

theorem last (hsound : Layout.Sound src.code src.layout)
    (h : Standing src s c pc k f (i :: rest) ops tail) (hi : i.isBranch = true) : rest = [] := by
  have hdescribes := hsound.describes c (Nat.pos_of_ne_zero h.inner) h.inside
  obtain ⟨hstart, hstop, hget⟩ := h.instruction
  by_contra hne
  have hmore : pc + 1 < (src.layout.block c).stop := by
    obtain ⟨done, hsplit, hpc⟩ := h.here
    have hlength := length_instructionsOf hdescribes.stop_le
    rw [hsplit, List.length_append, List.length_cons] at hlength
    have := List.length_pos_of_ne_nil hne
    omega
  have := hdescribes.inner pc hstart hmore
  rw [getD_eq_of_getElem? hget, hi] at this
  cases this

end Standing

/-! ## Runs side by side -/

/-- How often a run can go on alone from a place: once for each instruction still to come, and by
the jump behind them. -/
def weight (src : Source) (pc : Nat) (rest : List Instruction) : Nat :=
  2 * (src.code.instructions.length - pc) + if rest = [] then 1 else 0

theorem weight_succ_lt (h : pc < src.code.instructions.length) (i : Instruction)
    (rest : List Instruction) : weight src (pc + 1) rest < weight src pc (i :: rest) := by
  simp only [weight, reduceCtorEq, if_false]
  split <;> omega

/-- A run of the code and one of the body: both ended, the arguments still to be taken, or at places
that belong together. -/
inductive Along (src : Source) (s : State) (args : Nat → V) :
    Nat → Option (Config Nat V W) → Option (Config (BlockId × Nat) V W) → Prop where
  | ended : Along src s args 0 none none
  | entry {done todo : List Operand} {target : BlockId} {k : Nat} {w : W} {m m' : Memory V} :
      (s.body.block 0).ops = argumentOps (done ++ todo) ++ [.goto target] →
      (blockState s 0).written = argumentRegs (done ++ todo) →
      src.layout.blockAt 0 = .ok target → k = done.length →
      (∀ index < (done ++ todo).length, m.store index = args index) → m.caught = m'.caught →
      (∀ e ∈ argumentRegs done, m.store e.1 = m'.store e.2) →
      Along src s args (2 * src.code.instructions.length + 1 + todo.length) (some ⟨0, w, m⟩)
        (some ⟨(0, k), w, m'⟩)
  | within {c : BlockId} {pc k : Nat} {f : Frame} {rest : List Instruction}
      {ops tail : List Op} {w : W}
      {m m' : Memory V} : Standing src s c pc k f rest ops tail → Agrees (blockState s c) f m m' →
      Along src s args (weight src pc rest) (some ⟨pc, w, m⟩) (some ⟨(c, k), w, m'⟩)

section Runs

variable (hsound : Layout.Sound src.code src.layout) (h : Complete src types s)
include hsound h

theorem Complete.standing_enter (hat : src.layout.blockAt pc = .ok t) :
    instructionsOf src t ≠ [] ∧ ∃ ops tail, Standing src s t pc 0 {} (instructionsOf src t)
      ops tail := by
  obtain ⟨hpos, ht, rfl⟩ := Layout.blockAt_eq_ok hat
  have hne : t ≠ 0 := Nat.ne_of_gt hpos
  have hdescribes := hsound.describes t hpos ht
  have hsome : instructionsOf src t ≠ [] := by
    have hlength := length_instructionsOf hdescribes.stop_le
    have := hdescribes.start_lt
    intro hnil
    rw [hnil, List.length_nil] at hlength
    omega
  refine ⟨hsome, ?_⟩
  have hshape := (h.block t ht).shape
  generalize hops : (s.body.block t).ops = ops at hshape
  cases hshape with
  | entry _ _ _ => exact absurd rfl hne
  | leaves _ htrans hlast =>
    exact ⟨_, [], ht, hne, ⟨[], rfl, rfl⟩, ⟨[], by simp [hops], rfl⟩, htrans, by
      simp, .leaves hlast,
      fun hnil => absurd hnil hsome⟩
  | falls _ htrans _ htarget =>
    exact ⟨_, _, ht, hne, ⟨[], rfl, rfl⟩, ⟨[], by simp [hops], rfl⟩, htrans, by
      simp, .falls htarget,
      fun hnil => absurd hnil hsome⟩

theorem Complete.along_enter {regs : Registers} (hat : src.layout.blockAt pc = .ok t)
    (hexit : c ∈ src.layout.preds t ∧ writtenTowards src s c t = regs)
    (hagrees : Agrees (blockState s c) ⟨regs, none⟩ m m') :
    Along src s args (2 * (src.code.instructions.length - pc))
      (some (src.code.routine.enter k pc w m))
      (some (s.body.routine.enter (c, k) t w m')) := by
  obtain ⟨hsome, ops, tail, hstand⟩ := h.standing_enter hsound hat
  have hweight : 2 * (src.code.instructions.length - pc) = weight src pc
      (instructionsOf src t) := by
    simp [weight, hsome]
  rw [hweight]
  refine .within hstand ⟨hagrees.caught, fun reg v hv => ?_⟩
  exact hagrees.store (hexit.2 ▸ h.holds_picks hsound hexit.1 (hv.mem.resolve_left (by simp)))

/-- An instruction and its operation lead to places that belong together again. -/
theorem Complete.rejoins {regs new : Registers} {i : Instruction} {op : Op} {pending : Option Reg}
    {rest : List Instruction} {ops tail : List Op}
    (hstand : Standing src s c pc k ⟨regs, none⟩ (i :: rest) ([op] ++ ops) tail)
    (hagrees : Agrees (blockState s c) ⟨regs, none⟩ m m')
    (hrender : Renders src (Holds regs (blockState s c).atEntry) pc i op)
    (hreceives : Receives (i.effect pc) op.dest? new pending)
    (hnote : (src.layout.block c).throwing = some pc → (blockState s c).beforeThrow = some regs)
    (hrest : Translates src c (blockState s c) (pc + 1) ⟨new ++ regs, pending⟩ rest ops
      { written := (blockState s c).written }) :
    Rejoins src.code.routine s.body.routine host args (Along src s args)
      (fun index b => src.layout.blockAt index = .ok b) pc (c, k) (i.effect pc)
        op.effect w m m' := by
  have hop := hstand.operation
  constructor
  case next =>
    intro seen w' value hrun
    have hbranch : i.isBranch = false := by simpa using hrun.leaves_of_next
    refine ⟨_, .within (hstand.next (.op hrender hreceives hnote) hrest hbranch) ?_⟩
    refine hagrees.receive (by simpa using hreceives) ?_ ?_
    · rintro rfl
      obtain ⟨exit, hrun', hexit⟩ := Effect.Corresponds.runs hrender (fun _ _ => hagrees.store)
        hagrees.caught hrun
      cases hexit
      exact hrun'.dest?_eq_none
    · intro v hv reg u hu heq
      have hfresh := (h.wellFormed hsound).not_available_dest (h.scoped hsound) hop
        (by simpa using hv)
      exact hfresh (heq ▸ available_of_inBlock (hstand.inBlock_of_holds hu))
  case jump =>
    intro seen w' index b hrun hrun' hat
    obtain ⟨hterminator, htarget⟩ := Op.leaves_of_jump hrun'
    have hexit := h.normal_exit hsound hstand.inside hop hterminator htarget
    -- a jump is the last operation and defines nothing, so the registers are those at the end
    obtain rfl := hstand.last hsound (hrender.isTerminator_eq.symm.trans hterminator)
    have hdest : op.dest? = none := by simpa using hrun'.dest?_of_jump
    rw [hdest] at hreceives
    cases hreceives
    cases hrest
    exact ⟨_, h.along_enter hsound hat hexit hagrees⟩
  case raise =>
    intro seen w' x hrun
    have hthrow : i.canThrow = true := by simpa using hrun.canThrow_of_raise
    have hdescribes := hsound.describes c (Nat.pos_of_ne_zero hstand.inner) hstand.inside
    obtain ⟨hstart, hstop, hget⟩ := hstand.instruction
    obtain ⟨hhandlers, hthrowing⟩ := hdescribes.handlers_of_throw hstart hstop
      (by rwa [getD_eq_of_getElem? hget])
    have hsame : (s.body.routine).handlers (c, k) = (src.layout.block c).handlers :=
      h.handlers c hstand.inside
    rw [hsame]
    refine List.forall₂_iff_zip.2 ⟨hhandlers.length_eq, fun {handler handler'} hzip => ?_⟩
    obtain ⟨hat, hguard⟩ := List.forall₂_zip hhandlers hzip
    have hmem := (List.of_mem_zip hzip).2
    have hexit := h.exceptional_exit hsound hstand.inside hmem
      (hnote (hthrowing (List.ne_nil_of_mem hmem)))
    exact ⟨hguard, _, h.along_enter hsound hat hexit ⟨rfl, hagrees.holds⟩⟩
  case ends => exact ⟨0, .ended⟩

omit hsound h in
theorem filterMap_dest?_argumentOps (dests : List Operand) :
    (argumentOps dests).filterMap Op.dest? = dests := by
  simp [argumentOps, List.filterMap_map, Function.comp_def, Op.dest?]

omit hsound h in
theorem mem_of_mem_argumentRegs {dests : List Operand} {e : Reg × Operand}
    (he : e ∈ argumentRegs dests) : e.2 ∈ dests := by
  obtain ⟨x, hx, rfl⟩ := List.mem_map.1 (List.mem_reverse.1 he)
  exact List.mem_of_getElem? (List.mem_zipIdx_iff_getElem?.1 hx)

theorem Complete.along_argument {done todo : List Operand} {dest : Operand} {target : BlockId}
    (hops : (s.body.block 0).ops = argumentOps (done ++ dest :: todo) ++ [.goto target])
    (hwritten : (blockState s 0).written = argumentRegs (done ++ dest :: todo))
    (hat : src.layout.blockAt 0 = .ok target)
    (hargs : ∀ index < (done ++ dest :: todo).length, m.store index = args index)
    (hcaught : m.caught = m'.caught)
    (hstore : ∀ e ∈ argumentRegs done, m.store e.1 = m'.store e.2) :
    Along src s args (2 * src.code.instructions.length + 1 + todo.length) (some ⟨0, w, m⟩)
      (some ⟨(0, done.length + 1), w,
        m'.after (.argument dest done.length) (some (args done.length))⟩) := by
  have hsplit : done ++ dest :: todo = done ++ [dest] ++ todo := by simp
  have hnodup : (done ++ dest :: todo).Nodup := by
    have hpos : 0 < s.body.blockCount := (h.wellFormed hsound).nonempty
    have := (List.nodup_append.1 (Body.nodup_definedValues_block h.defined_nodup hpos)).2.1
    unfold Block.opDests at this
    rw [hops, List.filterMap_append, filterMap_dest?_argumentOps] at this
    exact (List.nodup_append.1 this).1
  rw [hsplit] at hops hwritten hargs
  refine .entry hops hwritten hat (by simp) hargs (by simpa using hcaught) fun e he => ?_
  rw [m'.after_of_dest rfl]
  rw [argumentRegs_concat] at he
  rcases List.mem_cons.1 he with rfl | hold
  · simpa using hargs done.length (by simp)
  · have hne : e.2 ≠ dest := by
      rintro rfl
      exact (List.nodup_append.1 hnodup).2.2 e.2 (mem_of_mem_argumentRegs hold) e.2 (by simp) rfl
    simpa [Function.update_of_ne hne] using hstore e hold

theorem Complete.along_start {done : List Operand} {target : BlockId}
    (hops : (s.body.block 0).ops = argumentOps done ++ [.goto target])
    (hwritten : (blockState s 0).written = argumentRegs done)
    (hat : src.layout.blockAt 0 = .ok target) (hcaught : m.caught = m'.caught)
    (hstore : ∀ e ∈ argumentRegs done, m.store e.1 = m'.store e.2) :
    Along src s args (2 * src.code.instructions.length) (some ⟨0, w, m⟩)
      (some (s.body.routine.enter (0, done.length) target w m')) := by
  have hpos : 0 < src.layout.blocks.size := Nat.lt_trans Nat.one_pos hsound.size
  have hget : (s.body.block 0).ops[done.length]? = some (.goto target) := by
    simp [hops, argumentOps]
  have hexit := h.normal_exit hsound hpos hget rfl (List.mem_singleton_self target)
  refine h.along_enter hsound hat hexit ⟨hcaught, fun reg v hv => ?_⟩
  rw [hwritten] at hv
  exact hstore _ (hv.mem.resolve_right (h.not_mem_atEntry hsound))

theorem Complete.lockstep_within {f : Frame} {rest : List Instruction} {ops tail : List Op}
    (hstand : Standing src s c pc k f rest ops tail) (hagrees : Agrees (blockState s c) f m m') :
    (∃ n < weight src pc rest, ∃ a,
      Slips (src.code.routine.Step host args) (some ⟨pc, w, m⟩) a ∧
        Along src s args n a (some ⟨(c, k), w, m'⟩)) ∨
    (∃ n < weight src pc rest, ∃ b,
      Slips (s.body.routine.Step host args) (some ⟨(c, k), w, m'⟩) b ∧
        Along src s args n (some ⟨pc, w, m⟩) b) ∨
    MatchedBoth (src.code.routine.Step host args) (s.body.routine.Step host args) (Along src s args)
      (some ⟨pc, w, m⟩) (some ⟨(c, k), w, m'⟩) := by
  have htrans := hstand.translates
  generalize hend : ({ written := (blockState s c).written } : Frame) = last at htrans
  cases htrans with
  | nil =>
    obtain ⟨target, hop, hat⟩ := hstand.jump hsound
    subst hend
    have hexit := h.normal_exit hsound hstand.inside hop rfl (List.mem_singleton_self target)
    refine .inr (.inl ⟨_, ?_, _, slips_of_goto (by simp [Body.routine, hop, Op.effect]),
      h.along_enter (k := pc) hsound hat hexit hagrees⟩)
    simp [weight]
  | @cons _ _ f₁ _ i rest new ops hbecomes hrest =>
    subst hend
    obtain ⟨-, -, hget⟩ := hstand.instruction
    have hlt := weight_succ_lt (List.getElem?_eq_some_iff.1 hget).1 i rest
    have heffect : src.code.routine.effect? pc = some (i.effect pc) := by
      simp [Code.routine, hget]
    cases hbecomes with
    | taken =>
      exact .inl ⟨_, hlt, _, slips_of_moves heffect .result, .within (hstand.next .taken hrest rfl)
        hagrees.taken⟩
    | nothing =>
      exact .inl ⟨_, hlt, _, slips_of_moves heffect .skip,
        .within (hstand.next .nothing hrest rfl) hagrees⟩
    | copy hv =>
      exact .inl ⟨_, hlt, _, slips_of_moves heffect .copy,
        .within (hstand.next (.copy hv) hrest rfl) (hagrees.copy hv)⟩
    | @op regs added _ op pending hrender hreceives hnote =>
      refine .inr (.inr (matched_both heffect ?_ hrender (fun _ _ => hagrees.store) hagrees.caught
        (h.rejoins hsound hstand hagrees hrender hreceives hnote hrest)))
      simp [Body.routine, hstand.operation]

/-- The code and the body go together, whatever the host. -/
theorem Complete.lockstep (host : Host V W) (args : Nat → V) :
    Lockstep (src.code.routine.Step host args) (s.body.routine.Step host args)
      (Along src s args) := by
  intro n a b halong
  cases halong with
  | ended =>
    refine .inr (.inr ⟨?_, ?_⟩)
    · intro seen c hstep
      cases hstep
    · intro seen c hstep
      cases hstep
  | @entry done todo target k w m m' hops hwritten hat hk hargs hcaught hstore =>
    subst hk
    cases todo with
    | nil =>
      rw [List.append_nil] at hops hwritten
      refine .inr
        (.inl ⟨_, ?_, _, slips_of_goto ?_, h.along_start hsound hops hwritten hat hcaught hstore⟩)
      · simp
      · simp [Body.routine, hops, argumentOps, Op.effect]
    | cons dest todo =>
      refine .inr (.inl ⟨_, ?_, _, slips_of_moves ?_ .argument,
        h.along_argument hsound hops hwritten hat hargs hcaught hstore⟩)
      · simp
      · simp [Body.routine, hops, argumentOps, List.zipIdx_append, Op.effect]
  | within hstand hagrees => exact h.lockstep_within hsound hstand hagrees

theorem Complete.sameBehaviour (host : Host V W) (args : Nat → V) (w : W)
    (hargs : ∀ index < types.length, m.store index = args index) (hcaught : m.caught = m'.caught) :
    SameBehaviour (src.code.routine.Step host args) (s.body.routine.Step host args) (some ⟨0, w, m⟩)
      (some ⟨(0, 0), w, m'⟩) := by
  obtain ⟨dests, target, hops, hlength, hwritten, hat⟩ := h.exists_entry hsound
  rw [← List.nil_append dests] at hops
  refine (h.lockstep hsound host args).sameBehaviour (.entry hops hwritten hat rfl ?_ hcaught
    (by simp [argumentRegs]))
  rw [List.nil_append, hlength]
  exact hargs

end Runs

end BytecodeOpt.Ssa.Lift
