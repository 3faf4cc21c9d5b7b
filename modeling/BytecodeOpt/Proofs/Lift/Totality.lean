import Mathlib
import BytecodeOpt.Proofs.Lift.Answers

/-!
# Lifting that does not fail

Filling a block comes to an end without an error where every register that its instructions read can
be answered for, and where results and exceptions are picked up only by the instruction they are
for. From one block to the next the queries in waiting stay answerable, so that all blocks are
filled.
-/

namespace BytecodeOpt

/-- Instructions with a result for the next to pick up. -/
def Instruction.givesResult : Instruction → Bool
  | .invoke _ method _ => !method.proto.returnType.isVoid
  | .invokeCustom .. | .filledNewArray .. => true
  | _ => false

theorem Instruction.hasPendingResult_of_givesResult {i : Instruction} (h : i.givesResult = true) :
    i.hasPendingResult = true := by
  cases i <;> first | rfl | cases h

theorem Instruction.not_branch_of_hasPendingResult {i : Instruction}
    (h : i.hasPendingResult = true) :
    i.isBranch = false := by
  cases i <;> first | rfl | cases h

/-- Instructions that leave no operation behind. -/
def Instruction.isSilent : Instruction → Bool
  | .nop | .move .. => true
  | _ => false

namespace Ssa.Lift

open Std.Do Execution

set_option mvcgen.warning false

variable {α β : Type} {src : Source} {types : List ValueType} {b : BlockId} {regs : Registers}
  {s : State} {reg : Reg}

/-! ## Instructions -/

/-- A state in which a block can read. -/
structure Ready (src : Source) (types : List ValueType) (b : BlockId) (regs : Registers)
    (s : State) : Prop
    extends Answerable src types s where
  readable_self : Readable src s b
  regs_eq : (blockState s b).written = regs

/-- From a state of the one kind the action comes to an end in a state of the other. -/
abbrev Gets {α : Type} (before : State → Prop) (x : LiftM α) (after : State → Prop) : Prop :=
  ⦃fun s => ⌜before s⌝⦄ x ⦃⇓ _ s => ⌜after s⌝⦄

theorem Gets.of_run {before after : State → Prop} {x : LiftM α}
    (h : ∀ s, before s → ∃ a s', x.run s = .ok (a, s') ∧ after s') : Gets before x after := by
  intro s hs
  obtain ⟨a, s', hrun, hafter⟩ := h s hs
  have hpost : (wp⟦x.run s⟧ (fun r => ⌜after r.2⌝, ExceptConds.false)).down := by
    rw [hrun]
    exact hafter
  exact hpost

theorem Gets.run {before after : State → Prop} {x : LiftM α} (h : Gets before x after)
    (hs : before s) :
    ∃ a s', x.run s = .ok (a, s') ∧ after s' := by
  have hpost : (wp⟦x.run s⟧ (fun r => ⌜after r.2⌝, ExceptConds.false)).down := h s hs
  cases hrun : x.run s with
  | error fault =>
    rw [hrun] at hpost
    exact hpost.elim
  | ok r =>
    rw [hrun] at hpost
    exact ⟨r.1, r.2, rfl, hpost⟩

theorem gets_mapM {keeps : State → Prop} {f : α → LiftM β} {xs : List α}
    (h : ∀ x ∈ xs, Gets keeps (f x) keeps) :
    Gets keeps (xs.mapM f) keeps :=
  Gets.of_run fun _ hs => exists_run_mapM keeps (fun x hx _ hs => (h x hx).run hs) hs

/-- A register that can be read in a block. -/
def CanRead (src : Source) (b : BlockId) (regs : Registers) (reg : Reg) : Prop :=
  reg < src.code.registers ∧ (regs.lookup reg = none → Known src reg b)

section

variable (hsound : Layout.Sound src.code src.layout) (hins : src.code.ins = types.length)
include hsound hins

@[spec] theorem gets_read (hreg : CanRead src b regs reg) :
    Gets (Ready src types b regs) (read src b reg) (Ready src types b regs) := by
  refine Gets.of_run fun s h => ?_
  obtain ⟨v, s', hrun, hanswerable⟩ : ∃ v s', (read src b reg).run s = .ok (v, s') ∧
    Answerable src types s' := by
    rw [run_read, if_pos hreg.1]
    cases hlookup : (blockState s b).written.lookup reg with
    | some v => exact ⟨v, s, rfl, h.toAnswerable⟩
    | none =>
      exact exists_run_readAtEntry hsound hins h.toAnswerable h.readable_self
        (hreg.2 (h.regs_eq ▸ hlookup))
        (suffices_depthBound hsound h.readable_self.1 s reg)
  obtain ⟨-, hlooked, -⟩ := holdsIn_of_read h.toInv h.readable_self hrun
  exact ⟨v, s', hrun, { hanswerable with
    readable_self := h.readable_self.mono hlooked.toExtends
    regs_eq := (hlooked.written b).trans h.regs_eq }⟩

@[spec] theorem gets_readAll {more : List Reg} (hmore : ∀ reg ∈ more, CanRead src b regs reg) :
    Gets (Ready src types b regs) (more.mapM (read src b)) (Ready src types b regs) :=
  gets_mapM fun reg hreg => gets_read hsound hins (hmore reg hreg)

@[spec] theorem gets_readOption {more : Option Reg} (hmore : ∀ reg ∈ more, CanRead src b regs reg) :
    Gets (Ready src types b regs) (more.mapM (read src b)) (Ready src types b regs) := by
  cases more with
  | none => mvcgen [Option.mapM_none]
  | some reg =>
    mvcgen [Option.mapM_some]
    exact hmore reg rfl

end

theorem openPhis_put (s : State) (b c : BlockId) (reg : Reg) (v : Operand) :
    (blockState (put s b reg v) c).openPhis = (blockState s c).openPhis := by
  rw [put, blockState_modify]
  split <;> rfl

@[spec] theorem gets_write (hreg : reg < src.code.registers) (v : Operand) :
    Gets (Ready src types b regs) (write src b reg v) (Wanted src) :=
  Gets.of_run fun s h => ⟨(), put s b reg v, run_write_eq_ok.2 ⟨hreg, rfl⟩,
    fun c e he => h.wanted c e (openPhis_put s b c reg v ▸ he)⟩

@[spec] theorem gets_define (hreg : reg < src.code.registers) (type : ValueType) :
    Gets (Ready src types b regs) (define src b reg type) (Wanted src) :=
  Gets.of_run fun s h => ⟨_, _, run_define_eq_ok.2 ⟨hreg, rfl, rfl⟩,
    fun c e he => h.wanted c e (openPhis_put (withValue s type) b c reg s.body.valueCount ▸ he)⟩

@[spec] theorem gets_pendingResult {index : Nat} {type? : Option ValueType}
    {next : Option Instruction}
    (h : ∀ dest, next = some (.moveResult dest) → dest < src.code.registers ∧ type? ≠ none) :
    Gets (Ready src types b regs) (pendingResult src b index type? next) (Wanted src) := by
  unfold pendingResult
  split
  · rename_i dest
    obtain ⟨hdest, htype⟩ := h dest rfl
    obtain ⟨type, rfl⟩ := Option.ne_none_iff_exists'.1 htype
    mvcgen
  · exact Gets.of_run fun s hs => ⟨none, s, rfl, hs.wanted⟩

theorem gets_blockAt {P : Prop} {layout : Layout} {target : Nat}
    (h : ∃ c, layout.blockAt target = .ok c) :
    ⦃⌜P⌝⦄ layout.blockAt target ⦃⇓ _ => ⌜P⌝⦄ := by
  obtain ⟨c, hc⟩ := h
  intro hP
  rw [hc]
  exact hP

theorem gets_blocksAt (types : List ValueType) (b : BlockId) (regs : Registers) {targets : List Nat}
    (h : ∀ t ∈ targets, ∃ c, src.layout.blockAt t = .ok c) :
    Gets (Ready src types b regs)
      (targets.mapM fun t => (MonadLift.monadLift (src.layout.blockAt t) : LiftM BlockId))
      (Ready src types b regs) :=
  gets_mapM fun t ht => Gets.of_run fun s hs => by
    obtain ⟨c, hc⟩ := h t ht
    exact ⟨c, s, run_lift_eq_ok.2 ⟨hc, rfl⟩, hs⟩

/-- An instruction is lifted if its registers can be read, those it writes exist, there are blocks
where it leads, and a result is moved only if there is one. -/
theorem gets_operation (hsound : Layout.Sound src.code src.layout)
    (hins : src.code.ins = types.length) {i : Instruction} {index : Nat} {next : Option Instruction}
    (hreads : ∀ reg ∈ (i.effect index).operands, CanRead src b regs reg)
    (hwrites : ∀ reg, (i.effect index).dest? = some reg → reg < src.code.registers)
    (hresult : ∀ dest, next = some (.moveResult dest) → i.hasPendingResult = true →
      dest < src.code.registers ∧ i.givesResult = true)
    (htargets : ∀ t ∈ (i.effect index).targets, ∃ c, src.layout.blockAt t = .ok c)
    (hplain : ∀ dest, i ≠ .moveResult dest ∧ i ≠ .moveException dest) :
    Gets (Ready src types b regs) (operation src b index next i) (Wanted src) := by
  have hwanted : ∀ {s}, Ready src types b regs s → Wanted src s := fun h => h.wanted
  cases i with
  | moveResult dest => exact absurd rfl (hplain dest).1
  | moveException dest => exact absurd rfl (hplain dest).2
  | nop | line _ =>
    mvcgen [operation]
    all_goals exact hwanted ‹_›
  | const dest _ | constString dest _ _ | newInstance dest _ | staticGet dest _ =>
    mvcgen [operation]
    all_goals exact hwrites dest rfl
  | move dest x | newArray dest x _ | arrayLength dest x
  | instanceGet dest x _ | instanceOf dest x _ | unary _ dest x =>
    mvcgen [operation]
    · exact hreads x List.mem_cons_self
    · exact hwrites dest rfl
  | checkCast x _ =>
    mvcgen [operation]
    · exact hreads x List.mem_cons_self
    · exact hwrites x rfl
  | binary _ _ dest x y | arrayGet dest x y _ =>
    mvcgen [operation]
    · exact hreads x (by simp [Instruction.effect, Effect.operands])
    · exact hreads y (by simp [Instruction.effect, Effect.operands])
    · exact hwrites dest rfl
  | staticPut x _ | throw x | instancePut x y _ | arrayPut x y z _ =>
    mvcgen [operation]
    all_goals first
      | exact hwanted ‹_›
      | exact hreads _ (by simp [Instruction.effect, Effect.operands])
  | ret value =>
    mvcgen [operation]
    · exact fun reg hreg => hreads reg (by simpa [Instruction.effect, Effect.operands] using hreg)
    · exact hwanted ‹_›
  | goto target =>
    mvcgen [operation, gets_blockAt]
    · exact htargets target List.mem_cons_self
    · exact hwanted ‹_›
  | branch cond left right target =>
    mvcgen [operation, gets_blockAt]
    · exact hreads left (by simp [Instruction.effect, Effect.operands])
    · exact fun reg hreg => hreads reg (by simp_all [Instruction.effect, Effect.operands])
    · exact htargets target (by simp [Instruction.effect, Effect.targets])
    · exact htargets (index + 1) (by simp [Instruction.effect, Effect.targets])
    · exact hwanted ‹_›
  | switch value keys targets =>
    have hblocks := gets_blocksAt types b regs fun t (ht : t ∈ targets) =>
      htargets t (by simp [Instruction.effect, Effect.targets, ht])
    mvcgen [operation, hblocks, gets_blockAt]
    · exact hreads value (by simp [Instruction.effect, Effect.operands])
    · exact htargets (index + 1) (by simp [Instruction.effect, Effect.targets])
    · exact hwanted ‹_›
  | invoke kind method args =>
    mvcgen [operation]
    rename_i returned declared _ _
    intro dest hnext
    obtain ⟨hdest, hgives⟩ := hresult dest hnext rfl
    have hvoid : returned.isVoid = false := by simpa [Instruction.givesResult] using hgives
    exact ⟨hdest, by simp [declared, hvoid]⟩
  | invokeCustom site args | filledNewArray type args =>
    mvcgen [operation]
    all_goals exact fun dest hnext => ⟨(hresult dest hnext rfl).1, by simp⟩

/-! ## Blocks -/

/-- What lifting asks of code apart from what is read: registers that are written exist, a result is
moved directly after the instruction that gives one, and an exception is caught before anything else
in a block that is entered by exceptions only. -/
structure Placed (src : Source) : Prop where
  inside : ∀ written index i, src.code.Arrives written index →
    src.code.instructions[index]? = some i →
    ∀ reg, (i.effect index).dest? = some reg → reg < src.code.registers
  result : ∀ b k dest, (instructionsOf src b)[k]? = some (.moveResult dest) →
    ∃ j i, k = j + 1 ∧ (instructionsOf src b)[j]? = some i ∧ i.givesResult = true
  exception : ∀ b k dest, (instructionsOf src b)[k]? = some (.moveException dest) →
    src.layout.preds b ≠ [] ∧
    (∀ p ∈ src.layout.preds b, src.layout.isExceptional p b = true) ∧
    ∀ i ∈ (instructionsOf src b).take k, i.isSilent = true

theorem Placed.lt_of_arrives (h : Placed src) {written : List Reg} {index : Nat}
    (harrives : src.code.Arrives written index) (hreg : reg ∈ written) :
    reg < src.code.registers := by
  induction harrives with
  | start => cases hreg
  | next harrives hget _ ih =>
    rcases List.mem_append.1 hreg with hreg | hreg
    · exact h.inside _ _ _ harrives hget reg (Option.mem_toList.1 hreg)
    · exact ih hreg
  | raise _ _ _ _ ih => exact ih hreg

/-- Code that is lifted: on every way to an instruction, what it reads was written or is an
argument. -/
structure Liftable (src : Source) (types : List ValueType) : Prop extends Placed src where
  sound : Layout.Sound src.code src.layout
  ins_eq : src.code.ins = types.length
  ins_le : src.code.ins ≤ src.code.registers
  defined : src.code.Defined

/-- Between two instructions of a block: what was written on the way is in its registers. -/
structure Midway (src : Source) (types : List ValueType) (b : BlockId)
    (before rest : List Instruction)
    (pending : Option Reg) (s : State) : Prop extends Filling src b s, Answerable src types s where
  split : instructionsOf src b = before ++ rest
  pending_next : ∀ dest, pending = some dest → rest.head? = some (.moveResult dest)
  taken : ∀ i dest, before.getLast? = some i → i.hasPendingResult = true →
    rest.head? = some (.moveResult dest) →
    pending = some dest
  counts : Frame.Counts ⟨(blockState s b).written, pending⟩
  spared : ∀ reg, (blockState s b).written.lookup reg = none →
    src.code.Spares reg (src.layout.block b).start ((src.layout.block b).start + before.length)
  silent : (∀ i ∈ before, i.isSilent = true) → (s.body.block b).ops = []

theorem Spares.succ {code : Code} {start index : Nat} {i : Instruction}
    (h : code.Spares reg start index)
    (hi : code.instructions[index]? = some i) (hne : (i.effect index).dest? ≠ some reg) :
    code.Spares reg start (index + 1) := by
  intro j i' hj hlt hi'
  rcases Nat.lt_succ_iff_lt_or_eq.1 hlt with hlt | rfl
  · exact h j i' hj hlt hi'
  · grind

namespace Midway

variable {before rest : List Instruction} {i : Instruction} {pending : Option Reg}

theorem instruction (h : Midway src types b before (i :: rest) pending s) :
    (src.layout.block b).start + before.length < (src.layout.block b).stop ∧
      src.code.instructions[(src.layout.block b).start + before.length]? = some i :=
  getElem?_instructionsOf (by simp [h.split])

theorem take {dest : Reg} (h : Midway src types b before (.moveResult dest :: rest) (some dest) s) :
    Midway src types b (before ++ [.moveResult dest]) rest none s := by
  refine { h.toFilling, h.toAnswerable with
    split := ?_, pending_next := ?_, taken := ?_, counts := ?_, spared := ?_, silent := ?_ }
  · simp [h.split]
  · simp
  · intro i _ hi hpending
    obtain rfl : .moveResult dest = i := by simpa using hi
    cases hpending
  · simp [Frame.Counts]
  · intro reg hreg
    rw [List.length_append, List.length_singleton, ← Nat.add_assoc]
    refine Spares.succ (h.spared reg hreg) h.instruction.2 fun hdest => ?_
    obtain rfl := Option.some.inj hdest
    exact h.counts _ rfl hreg
  · intro hsilent
    have := hsilent (.moveResult dest) (by simp)
    cases this

theorem ready (h : Midway src types b before rest none s) (index : Nat) :
    Ready src types b (blockState s b).written (noted src s b index) := by
  have hfill := fills_noted src s b index
  have hevolves := Evolves.of_fills hfill h.unfilled
  refine { (h.toCoded.noted h.unfilled
    index).toInv with done := ?_, wanted := ?_, readable_self := ?_, regs_eq := ?_ }
  · intro c hc
    rw [hfill.isFilled c] at hc
    exact (h.done c hc).evolve hevolves hc
  · intro c e he
    refine h.wanted c e ?_
    rw [blockState_noted] at he
    split at he <;> exact he
  · exact h.readable_self.of_fills hfill
  · exact written_noted index

/-- After an instruction that was lifted, the next one is to be lifted. -/
theorem step (h : Midway src types b before (i :: rest) none s) {op : Option Op} {s₁ : State}
    (hnote : (src.layout.block b).throwing = some ((src.layout.block b).start + before.length) →
      i.canThrow = true)
    (hrun : (operation src b ((src.layout.block b).start + before.length) rest.head? i).run
      (noted src s b ((src.layout.block b).start + before.length)) = .ok (op, s₁)) (hwanted :
        Wanted src s₁) :
    Midway src types b (before ++ [i]) rest (pickedUp i rest.head?) (emitted s₁ b op) := by
  obtain ⟨hfilling, hfill, hops, hbecomes, -⟩ := filling_of_instruction h.toFilling hnote hrun
  obtain ⟨hcounts, hlookup⟩ := hbecomes.lookup_eq_none (by simp [Frame.Counts])
  have hevolves := Evolves.of_fills hfill h.unfilled
  refine { hfilling with
    done := ?_, wanted := ?_, split := ?_, pending_next := ?_, taken := ?_, counts := hcounts,
      spared := ?_, silent := ?_ }
  · intro c hc
    rw [hfill.isFilled c] at hc
    exact (h.done c hc).evolve hevolves hc
  · intro c e he
    cases op <;> exact hwanted c e he
  · simp [h.split]
  · exact fun _ => pickedUp_eq_some
  · intro j dest hj hpending hnext
    obtain rfl : i = j := by simpa using hj
    simp [pickedUp, hnext, hpending]
  · intro reg hreg
    rw [List.length_append, List.length_singleton, ← Nat.add_assoc]
    exact Spares.succ (h.spared reg (hlookup reg hreg).1) h.instruction.2 (hlookup reg hreg).2
  · intro hsilent
    have hbefore := h.silent fun j hj => hsilent j (List.mem_append_left _ hj)
    have hi := hsilent i (by simp)
    obtain rfl : op = none := by
      cases i with
      | nop =>
        rw [operation, run_pure_eq_ok] at hrun
        exact hrun.1
      | move dest source =>
        simp only [operation, run_bind_eq_ok, run_pure_eq_ok] at hrun
        obtain ⟨_, _, _, _, _, _, hnone, _⟩ := hrun
        exact hnone
      | _ => cases hi
    rw [hops, hbefore]
    rfl

section

variable (hsound : Layout.Sound src.code src.layout) (hb : 0 < b)
include hsound hb

theorem exists_arrives_here {written : List Reg}
    (h : Midway src types b before (i :: rest) pending s)
    (harrives : src.code.Arrives written (src.layout.block b).start) :
    ∃ written', src.code.Arrives written' ((src.layout.block b).start + before.length) ∧ ∀ reg,
      reg ∉ written →
      (blockState s b).written.lookup reg = none → reg ∉ written' := by
  have hdescribes := hsound.describes b hb h.readable_self.1
  have hlt := h.instruction.1
  obtain ⟨written', harrives', hkept⟩ := harrives.walk (Nat.le_add_right _ before.length)
    (by have := hdescribes.stop_le; omega) fun index hstart hindex =>
      hdescribes.inner index hstart (by omega)
  exact ⟨written', harrives', fun reg hreg hlookup => hkept reg hreg (h.spared reg hlookup)⟩

theorem last_of_branch (h : Midway src types b before (i :: rest) pending s)
    (hi : i.isBranch = true) :
    (src.layout.block b).stop = (src.layout.block b).start + before.length + 1 := by
  have hdescribes := hsound.describes b hb h.readable_self.1
  obtain ⟨hlt, hget⟩ := h.instruction
  by_contra hne
  have := hdescribes.inner _ (Nat.le_add_right _ before.length) (by omega)
  rw [getD_eq_of_getElem? hget, hi] at this
  cases this

theorem exists_blockAt (h : Midway src types b before (i :: rest) pending s) {t : Nat}
    (ht : t ∈ (i.effect ((src.layout.block b).start + before.length)).targets) :
    ∃ c, src.layout.blockAt t = .ok c := by
  rw [Instruction.targets_effect] at ht
  cases hbranch : i.isBranch with
  | false => simp [hbranch, (falls_of_not_branch hbranch).1] at ht
  | true =>
    obtain ⟨next, hnext, -⟩ := (hsound.describes b hb h.readable_self.1).next
    have hstop := h.last_of_branch hsound hb hbranch
    refine (Fallible.exists_right_of_forall₂ hnext ?_).imp fun c hc => hc.2
    rw [Layout.nextOf, hstop, Nat.add_sub_cancel, getD_eq_of_getElem? h.instruction.2]
    cases hflow : i.endsFlow <;> simpa [hbranch, hflow] using ht

end

section

variable (hl : Liftable src types) (hb : 0 < b)
include hl hb

theorem canRead (h : Midway src types b before (i :: rest) pending s)
    (hreg : reg ∈ (i.effect ((src.layout.block b).start + before.length)).operands) :
    CanRead src b (blockState s b).written reg := by
  have hget := h.instruction.2
  constructor
  · obtain ⟨written, harrives⟩ := exists_arrives hl.sound hb h.readable_self.1
    obtain ⟨written', harrives', -⟩ := h.exists_arrives_here hl.sound hb harrives
    rcases hl.defined written' _ i harrives' hget reg hreg with hmem | hlt
    · exact hl.lt_of_arrives harrives' hmem
    · exact Nat.lt_of_lt_of_le hlt hl.ins_le
  · refine fun hlookup => ⟨hb, fun written harrives => ?_⟩
    by_contra hnot
    rw [not_or] at hnot
    obtain ⟨written', harrives', hkept⟩ := h.exists_arrives_here hl.sound hb harrives
    exact (hl.defined written' _ i harrives' hget reg hreg).elim (hkept reg hnot.1 hlookup) hnot.2

theorem exists_run_operation (h : Midway src types b before (i :: rest) none s) :
    ∃ op s₁, (operation src b ((src.layout.block b).start + before.length) rest.head? i).run
      (noted src s b ((src.layout.block b).start + before.length)) = .ok (op, s₁) ∧
        Wanted src s₁ := by
  have hready := h.ready ((src.layout.block b).start + before.length)
  obtain ⟨written, harrives⟩ := exists_arrives hl.sound hb h.readable_self.1
  obtain ⟨written', harrives', -⟩ := h.exists_arrives_here hl.sound hb harrives
  have hget := h.instruction.2
  have hposition : (instructionsOf src b)[before.length]? = some i := by simp [h.split]
  have hwrites := hl.inside written' _ i harrives' hget
  by_cases hexception : ∃ dest, i = .moveException dest
  · obtain ⟨dest, rfl⟩ := hexception
    obtain ⟨hpreds, hall, hsilent⟩ := hl.exception b before.length dest hposition
    obtain ⟨v, s', hdefine, hwanted⟩ := (gets_define (hwrites dest rfl) .reference).run hready
    refine ⟨_, s', run_moveException_eq_ok.2 ⟨?_, v, hdefine, rfl⟩, hwanted⟩
    have hops : (s.body.block b).ops = [] := h.silent (by simpa [h.split] using hsilent)
    simpa [isHandlerEntry, hops, hpreds] using hall
  · refine (gets_operation hl.sound hl.ins_eq (fun reg hreg => h.canRead hl hb hreg) hwrites ?_
      (fun t ht => h.exists_blockAt hl.sound hb ht) fun dest =>
        ⟨?_, fun hi => hexception ⟨dest, hi⟩⟩).run hready
    · intro dest hnext hpending
      obtain ⟨more, rfl⟩ : ∃ more, rest = .moveResult dest :: more := List.head?_eq_some_iff.1 hnext
      have hmove : (instructionsOf src b)[before.length + 1]? = some (.moveResult dest) := by
        simp [h.split]
      obtain ⟨j, prev, hj, hprev, hgives⟩ := hl.result b _ dest hmove
      obtain rfl := Nat.succ.inj hj
      rw [hposition, Option.some.injEq] at hprev
      obtain ⟨htargets, hflow⟩ :=
        falls_of_not_branch (Instruction.not_branch_of_hasPendingResult hpending)
      obtain ⟨after, hafter⟩ :
        ∃ after, src.code.Arrives after ((src.layout.block b).start + (before.length + 1)) :=
        ⟨_, harrives'.next hget (by simp [htargets, hflow, Nat.add_assoc])⟩
      exact ⟨hl.inside after _ _ hafter (getElem?_instructionsOf hmove).2 dest rfl, hprev ▸ hgives⟩
    · rintro rfl
      obtain ⟨j, prev, hj, hprev, hgives⟩ := hl.result b before.length dest hposition
      rw [h.split, List.getElem?_append_left (by omega)] at hprev
      have hlast : before.getLast? = some prev := by
        rw [List.getLast?_eq_getElem?, hj, Nat.add_sub_cancel, hprev]
      cases h.taken prev dest hlast (Instruction.hasPendingResult_of_givesResult hgives) rfl

theorem exists_run_fillFrom (h : Midway src types b before rest pending s) :
    ∃ s', (fillFrom src b rest ((src.layout.block b).start + before.length) pending.isSome).run s =
      .ok ((), s') ∧
      Wanted src s' := by
  induction rest generalizing before pending s with
  | nil =>
    cases pending with
    | some dest => cases h.pending_next dest rfl
    | none => exact ⟨s, rfl, h.wanted⟩
  | cons i rest ih =>
    have hlength : ∀ j : Instruction, (src.layout.block b).start + (before ++ [j]).length =
        (src.layout.block b).start + before.length + 1 := fun j => by simp [Nat.add_assoc]
    cases pending with
    | some dest =>
      obtain rfl : i = .moveResult dest := by simpa using h.pending_next dest rfl
      rw [Option.isSome_some, fillFrom, ← hlength (.moveResult dest)]
      exact ih h.take
    | none =>
      obtain ⟨op, s₁, hop, hwanted⟩ := h.exists_run_operation hl hb
      have hnote : (src.layout.block b).throwing =
          some ((src.layout.block b).start + before.length) →
          i.canThrow = true := fun hthrow => by
        have := ((hl.sound.describes b hb h.readable_self.1).some _ hthrow).1.throws
        rwa [getD_eq_of_getElem? h.instruction.2] at this
      obtain ⟨s', hrun, hwanted'⟩ := ih (h.step hnote hop hwanted)
      rw [hlength, ← takesResult_eq] at hrun
      exact ⟨s', run_fillFrom_cons_eq_ok.2 ⟨op, s₁, hop, hrun⟩, hwanted'⟩

end

end Midway

theorem exists_run_arguments {arguments : List (ValueType × Nat)}
    (hinside : ∀ e ∈ arguments, e.2 < src.code.registers) (h : Wanted src s) :
    ∃ s', (forIn arguments PUnit.unit fun (e : ValueType × Nat) (_ : PUnit) => do
      let dest ← newValue e.1
      emit 0 (.argument dest e.2)
      write src 0 e.2 dest
      pure (ForInStep.yield PUnit.unit)).run s = .ok (⟨⟩, s') ∧
      (∀ e ∈ ([] : List (ValueType × Nat)), e.2 < src.code.registers) ∧ Wanted src s' := by
  refine exists_run_forIn
    (fun rest s => (∀ e : ValueType × Nat, e ∈ rest → e.2 < src.code.registers) ∧ Wanted src s) ?_
    ⟨hinside, h⟩
  rintro e rest s ⟨hinside, h⟩
  have hwrite : (write src 0 e.2 s.body.valueCount).run
      (emitted (withValue s e.1) 0 (some (.argument s.body.valueCount e.2))) =
        .ok ((), withArgument s e.1 e.2) :=
    run_write_eq_ok.2 ⟨hinside e List.mem_cons_self, rfl⟩
  refine ⟨withArgument s e.1 e.2, ?_, fun e' he' => hinside e' (List.mem_cons_of_mem _ he'),
    fun c e' he' => ?_⟩
  · exact run_bind_eq_ok.2 ⟨_, _, rfl,
      run_bind_eq_ok.2 ⟨(), _, rfl, run_bind_eq_ok.2 ⟨(), _, hwrite, rfl⟩⟩⟩
  · rw [withArgument, openPhis_put] at he'
    exact h c e' he'

theorem exists_run_fillEntry (hsound : Layout.Sound src.code src.layout)
    (hregs : types.length ≤ src.code.registers)
    (h : Wanted src s) : ∃ s', (fillEntry src types).run s = .ok ((), s') ∧ Wanted src s' := by
  obtain ⟨s₁, hargs, -, h₁⟩ := exists_run_arguments
    (fun e (he : e ∈ types.zipIdx) =>
      Nat.lt_of_lt_of_le (by simpa using List.snd_lt_of_mem_zipIdx he) hregs) h
  have hat := hsound.blockAt 1 Nat.one_pos hsound.size
  rw [hsound.first] at hat
  refine ⟨emitted s₁ 0 (some (.goto 1)), ?_, h₁⟩
  rw [fillEntry]
  exact run_bind_eq_ok.2 ⟨_, s₁, hargs, run_bind_eq_ok.2 ⟨1, s₁, run_lift_eq_ok.2 ⟨hat, rfl⟩,
    run_emit_eq_ok.2 rfl⟩⟩

theorem Progress.answerable {rest : List BlockId} (h : Progress src types rest s)
    (hwanted : Wanted src s) :
    Answerable src types s :=
  { h.toInv with done := h.done, wanted := hwanted }

theorem Progress.exists_run_fill {rest : List BlockId} (hl : Liftable src types)
    (h : Progress src types (b :: rest) s) (hwanted : Wanted src s) (hreadable : Readable src s b) :
    ∃ s', (Lift.fill src types b).run s = .ok ((), s') ∧ Wanted src s' := by
  unfold Lift.fill
  split
  · exact exists_run_fillEntry hl.sound (hl.ins_eq ▸ hl.ins_le) hwanted
  · rename_i hne
    have hb := Nat.pos_of_ne_zero hne
    have hunfilled := h.ahead b List.mem_cons_self
    obtain ⟨hops, hwritten, -⟩ := h.waiting b hunfilled
    have hstart : Midway src types b [] (instructionsOf src b) none s := by
      refine { h.filling hreadable hunfilled, h.answerable hwanted with
        split := rfl, pending_next := ?_, taken := ?_, counts := ?_, spared := ?_, silent :=
          fun _ => hops }
      · simp
      · simp
      · simp [Frame.Counts]
      · intro reg _ index i hindex hlt
        simp at hlt
        omega
    obtain ⟨s₁, hfrom, hwanted₁⟩ := hstart.exists_run_fillFrom hl hb
    have hdescribes := hl.sound.describes b hb hreadable.1
    obtain ⟨before, last, hsplit, -, hlast, -⟩ := exists_last_instruction hdescribes
    have hgetLast : (instructionsOf src b).getLast? = some last := by simp [hsplit]
    cases hbranch : last.isBranch with
    | true =>
      refine ⟨s₁, run_bind_eq_ok.2 ⟨(), s₁, hfrom, ?_⟩, hwanted₁⟩
      change (if !((instructionsOf src b).getLast?.any Instruction.isBranch) then _
        else _ : LiftM Unit).run s₁ = _
      rw [hgetLast, Option.any_some, hbranch]
      rfl
    | false =>
      obtain ⟨next, hnext, -⟩ := hdescribes.next
      obtain ⟨target, -, hat⟩ : ∃ target ∈ next, src.layout.blockAt (src.layout.block b).stop =
        .ok target := by
        refine Fallible.exists_right_of_forall₂ hnext ?_
        rw [Layout.nextOf, hlast]
        simp [(falls_of_not_branch hbranch).2]
      refine ⟨emitted s₁ b (some (.goto target)), run_bind_eq_ok.2 ⟨(), s₁, hfrom, ?_⟩, hwanted₁⟩
      change (if !((instructionsOf src b).getLast?.any Instruction.isBranch) then _
        else _ : LiftM Unit).run s₁ = _
      rw [hgetLast, Option.any_some, hbranch]
      exact run_bind_eq_ok.2 ⟨target, s₁, run_lift_eq_ok.2 ⟨hat, rfl⟩, rfl⟩

section

variable {rest : List BlockId} (hsound : Layout.Sound src.code src.layout)
  (hins : src.code.ins = types.length)
include hsound hins

/-- The open phis of a block get their operands: they stand for registers that its predecessors
leave. -/
theorem exists_run_closePhis {phis : Registers} (h : Sealing src b phis s)
    (hanswerable : Answerable src types s) (hknown : ∀ e ∈ phis, Known src e.1 b) :
    ∃ s', (forIn phis PUnit.unit fun (e : Reg × Operand) (_ : PUnit) => do
      let operands ← (src.layout.preds b).mapM fun p => readOverEdge src e.1 p b
      closePhi b e.2 operands
      pure (ForInStep.yield PUnit.unit)).run s = .ok (⟨⟩, s') ∧
      Sealing src b [] s' ∧ Answerable src types s' ∧ ∀ e ∈ ([] : Registers), Known src e.1 b := by
  refine exists_run_forIn (fun rest s => Sealing src b rest s ∧ Answerable src types s ∧ ∀ e ∈ rest,
    Known src e.1 b)
    ?_ ⟨h, hanswerable, hknown⟩
  rintro e rest s ⟨h, hanswerable, hknown⟩
  obtain ⟨operands, s₁, hread, h₁, -⟩ := exists_run_mapM (f := fun p => readOverEdge src e.1 p b)
    (fun s₁ => Answerable src types s₁ ∧ (blockState s₁ b).isSealed = true)
    (fun p (hp : p ∈ src.layout.preds b) s₁ hs₁ => by
      obtain ⟨v, s₂, hrun, h₂, hext⟩ := exists_run_readOver hsound hins
        (fun h hb hknown hdepth => exists_run_readAtEntry hsound hins h hb hknown hdepth) hs₁.1
          hs₁.2
        (hknown e List.mem_cons_self) hp (suffices_depthBound hsound (mem_preds.1 hp).1 s₁ e.1)
      exact ⟨v, s₂, hrun, h₂, (hext.isSealed b).trans hs₁.2⟩)
    ⟨hanswerable, h.sealed_self⟩
  obtain ⟨hsealing, hseals⟩ := h.close hread
  refine ⟨close s₁ b e.2 operands, run_bind_eq_ok.2 ⟨operands, s₁, hread, rfl⟩, hsealing,
    hanswerable.of_seals hsealing.toInv hseals h₁.wanted, fun e' he' =>
      hknown e' (List.mem_cons_of_mem _ he')⟩

theorem exists_run_trySeal (h : Progress src types rest s) (hwanted : Wanted src s)
    (hb : b < src.layout.blocks.size) :
    ∃ s', (trySeal src b).run s = .ok ((), s') ∧ Wanted src s' := by
  by_cases hseal : (!(blockState s b).isSealed && (src.layout.preds b).all fun p =>
    (blockState s p).isFilled) = true
  · have hfilled : ∀ p ∈ src.layout.preds b, (blockState s p).isFilled = true := by grind
    have hopened := sealing_opened h.toCoded hb hfilled
    have hanswerable := (h.answerable hwanted).of_seals hopened.toInv (seals_opened s b)
      fun c e he => by
      rw [blockState_opened] at he
      split at he
      · cases he
      · exact hwanted c e he
    obtain ⟨s', hrun, -, h', -⟩ := exists_run_closePhis hsound hins hopened hanswerable (hwanted b)
    refine ⟨s', ?_, h'.wanted⟩
    unfold trySeal
    refine run_bind_eq_ok.2 ⟨s, s, rfl, ?_⟩
    simp only [hseal, if_true]
    exact run_bind_eq_ok.2 ⟨(), opened s b, rfl, run_bind_eq_ok.2 ⟨⟨⟩, s', hrun, rfl⟩⟩
  · refine ⟨s, ?_, hwanted⟩
    unfold trySeal
    refine run_bind_eq_ok.2 ⟨s, s, rfl, ?_⟩
    simp only [hseal]
    rfl

end

/-! ## All blocks -/

/-- Blocks whose predecessors are filled are sealed, apart from those still to be tried. -/
def Tried (src : Source) (later : List BlockId) (s : State) : Prop :=
  ∀ c < src.layout.blocks.size, (c = 0 → (blockState s 0).isFilled = true) →
    (∀ p ∈ src.layout.preds c, (blockState s p).isFilled = true) → (blockState s c).isSealed =
      true ∨ c ∈ later

theorem Tried.of_seals {s' : State} {later : List BlockId} (h : Tried src later s)
    (hseals : Seals s s') :
    Tried src later s' := by
  intro c hc hentry hpreds
  simp only [hseals.isFilled] at hentry hpreds
  exact (h c hc hentry hpreds).imp_left (hseals.isSealed c)

section

variable {rest : List BlockId} (hsound : Layout.Sound src.code src.layout)
  (hins : src.code.ins = types.length)
include hsound hins

theorem exists_run_trySealAll {nexts : List BlockId}
    (hnexts : ∀ n ∈ nexts, n < src.layout.blocks.size)
    (h : Progress src types rest s) (hwanted : Wanted src s) (htried : Tried src nexts s) :
    ∃ s', (forIn nexts PUnit.unit fun next (_ : PUnit) => do
      trySeal src next
      pure (ForInStep.yield PUnit.unit)).run s = .ok (⟨⟩, s') ∧
        (∀ n ∈ ([] : List BlockId), n < src.layout.blocks.size) ∧
      Progress src types rest s' ∧ Wanted src s' ∧ Tried src [] s' := by
  refine exists_run_forIn (fun nexts s => (∀ n ∈ nexts, n < src.layout.blocks.size) ∧
    Progress src types rest s ∧
    Wanted src s ∧ Tried src nexts s) ?_ ⟨hnexts, h, hwanted, htried⟩
  rintro next more s ⟨hnexts, h, hwanted, htried⟩
  have hnext := hnexts next List.mem_cons_self
  obtain ⟨s', hrun, hwanted'⟩ := exists_run_trySeal hsound hins h hwanted hnext
  obtain ⟨hcoded, hseals, hsealed⟩ := coded_of_trySeal h.toCoded hnext hrun
  refine ⟨s', run_bind_eq_ok.2 ⟨(), s', hrun, rfl⟩,
    fun n hn => hnexts n (List.mem_cons_of_mem _ hn),
    h.of_seals hcoded hseals, hwanted', fun c hc hentry hpreds => ?_⟩
  rcases htried.of_seals hseals c hc hentry hpreds with hdone | hmem
  · exact .inl hdone
  · grind

end

section

variable {rest : List BlockId} (hl : Liftable src types)
include hl

theorem exists_run_block {before : List BlockId}
    (horder : src.layout.graph.reversePostorder 0 = before ++ b :: rest)
    (h : Progress src types (b :: rest) s) (hwanted : Wanted src s) (htried : Tried src [] s) :
    ∃ s', (fillRound src types b).run s = .ok (.yield ⟨⟩, s') ∧
      Progress src types rest s' ∧ Wanted src s' ∧ Tried src [] s' := by
  have hb : b < src.layout.blocks.size := by
    rw [← Layout.size_graph]
    exact Digraph.lt_size_of_mem_reversePostorder
      (horder ▸ List.mem_append_right _ List.mem_cons_self)
  have hnodup := Digraph.nodup_reversePostorder src.layout.graph 0
  rw [horder, List.nodup_append] at hnodup
  obtain ⟨s₁, hseal, hwanted₁⟩ := exists_run_trySeal hl.sound hl.ins_eq h hwanted hb
  obtain ⟨hcoded₁, hseals, hwaits⟩ := coded_of_trySeal h.toCoded hb hseal
  have h₁ := h.of_seals hcoded₁ hseals
  have htried₁ := htried.of_seals hseals
  have hreadable := h₁.readable_next hl.sound horder hb hwaits
  obtain ⟨s₂, hfill, hwanted₂⟩ := h₁.exists_run_fill hl hwanted₁ hreadable
  have hunfilled := h₁.ahead b List.mem_cons_self
  obtain ⟨hops, hwritten, -⟩ := h₁.waiting b hunfilled
  obtain ⟨-, hfills, -⟩ := filling_of_fill hl.sound (h₁.filling hreadable hunfilled) hops
    hwritten hfill
  have h₂ := h₁.fill hl.sound hnodup.2.1 hreadable hfill
  have hstate : ∀ c, (blockState (markFilled s₂ b) c).isSealed = (blockState s₁ c).isSealed ∧
      (c ≠ b → (blockState (markFilled s₂ b) c).isFilled = (blockState s₁ c).isFilled) ∧
      (blockState (markFilled s₂ b) c).openPhis = (blockState s₂ c).openPhis := by
    intro c
    rw [blockState_markFilled]
    split
    · rename_i hc
      exact ⟨hfills.isSealed c, fun hne => absurd hc.1.symm hne, rfl⟩
    · exact ⟨hfills.isSealed c, fun _ => hfills.isFilled c, rfl⟩
  have htried₂ : Tried src (src.layout.successors b) (markFilled s₂ b) := by
    intro c hc hentry hpreds
    rw [(hstate c).1]
    by_cases hedge : b ∈ src.layout.preds c
    · exact .inr (mem_preds.1 hedge).2
    · left
      have hpreds₁ : ∀ p ∈ src.layout.preds c, (blockState s₁ p).isFilled = true :=
        fun p hp => by grind
      by_cases hself : c = b
      · grind
      · refine (htried₁ c hc (fun hzero => ?_) hpreds₁).resolve_right (by simp)
        rw [← (hstate 0).2.1 fun heq => hself (hzero.trans heq)]
        exact hentry hzero
  obtain ⟨s₃, hnexts, -, h₃, hwanted₃, htried₃⟩ := exists_run_trySealAll hl.sound hl.ins_eq
    (fun n hn => (successors_bounds hl.sound hb n hn).2) h₂
    (fun c e he => hwanted₂ c e ((hstate c).2.2 ▸ he)) htried₂
  refine ⟨s₃, ?_, h₃, hwanted₃, htried₃⟩
  exact run_bind_eq_ok.2 ⟨(), s₁, hseal,
    run_bind_eq_ok.2 ⟨(), s₂, hfill, run_bind_eq_ok.2 ⟨(), markFilled s₂ b, rfl,
    run_bind_eq_ok.2 ⟨⟨⟩, s₃, hnexts, rfl⟩⟩⟩⟩

/-- Where every way has written what is read, all blocks are filled, and in the end all are
sealed. -/
theorem exists_run_fillAll (h : Progress src types (src.layout.graph.reversePostorder 0) s)
    (hwanted : Wanted src s) : ∃ s', (fillAll src types).run s = .ok ((), s') := by
  have htried : Tried src [] s := by
    intro c hc hentry hpreds
    have hunfilled : ∀ c < src.layout.blocks.size, (blockState s c).isFilled = false := fun c hc =>
      h.ahead c (Digraph.mem_reversePostorder.2 (hl.sound.reachable c hc))
    exfalso
    rcases Nat.eq_zero_or_pos c with rfl | hpos
    · grind
    · obtain ⟨p, hp⟩ := List.exists_mem_of_ne_nil _ (preds_ne_nil hl.sound hpos hc)
      have := hpreds p hp
      rw [hunfilled p (mem_preds.1 hp).1] at this
      cases this
  obtain ⟨s', hloop, -, h', -, htried'⟩ :=
    exists_run_forIn (f := fun b (_ : PUnit) => fillRound src types b)
    (fun rest s => (∃ before, src.layout.graph.reversePostorder 0 = before ++ rest) ∧
      Progress src types rest s ∧
      Wanted src s ∧ Tried src [] s)
    (by
      rintro b rest s ⟨⟨before, horder⟩, h, hwanted, htried⟩
      obtain ⟨s', hrun, hkept⟩ := exists_run_block hl horder h hwanted htried
      exact ⟨s', hrun, ⟨before ++ [b], by simpa using horder⟩, hkept⟩)
    ⟨⟨[], rfl⟩, h, hwanted, htried⟩
  have hfilled : ∀ c < src.layout.blocks.size, (blockState s' c).isFilled = true := fun c hc =>
    (h'.behind c hc).resolve_left (by simp)
  have hsealed : s'.blocks.findIdx? (fun st => !st.isSealed) = none := by
    refine Array.findIdx?_eq_none_iff.2 fun st hst => ?_
    obtain ⟨c, hc, rfl⟩ := Array.mem_iff_getElem.1 hst
    have hclt : c < src.layout.blocks.size := h'.size ▸ hc
    have := (htried' c hclt (fun _ => hfilled 0 (Nat.lt_trans Nat.one_pos hl.sound.size))
      fun p hp => hfilled p (mem_preds.1 hp).1).resolve_right (by simp)
    simpa [blockState, Array.getD_eq_getD_getElem?, hc] using this
  refine ⟨s', ?_⟩
  unfold fillAll
  refine run_bind_eq_ok.2 ⟨⟨⟩, s', hloop, run_bind_eq_ok.2 ⟨s', s', rfl, ?_⟩⟩
  rw [hsealed]
  rfl

end

end Ssa.Lift

end BytecodeOpt
