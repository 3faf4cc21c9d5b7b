import BytecodeOpt.Proofs.Execution.Correspondence
import BytecodeOpt.Proofs.Lift.Lookup

/-!
# Lifting an instruction

An instruction reads registers, then at most one gets a new value.  The operation it becomes does
the same with the values that the registers hold.
-/

namespace BytecodeOpt.Ssa.Lift

open Execution

variable {src : Source} {b : BlockId} {s s' : State} {next : Option Instruction}
  {i : Instruction} {v : Operand} {reg : Reg} {index : Nat} {op : Op}

/-! ## Reading -/

def HoldsIn (s : State) (b : BlockId) (reg : Reg) (v : Operand) : Prop :=
  Holds (blockState s b).written (blockState s b).atEntry reg v

theorem HoldsIn.mono (h : HoldsIn s b reg v) (hext : Extends s s') : HoldsIn s' b reg v := by
  rw [HoldsIn, hext.written b]
  exact Holds.mono h (hext.atEntry b)

structure Reads (src : Source) (b : BlockId) (s s' : State) (regs : List Reg)
    (values : List Operand) :
    Prop where
  inv : Inv src s'
  looked : Looked s s'
  readable : Readable src s' b
  holds : List.Forall₂ (HoldsIn s' b) regs values

namespace Reads

variable {regs : List Reg} {values : List Operand} {s₁ s₂ : State}

theorem nil (h : Inv src s) (hb : Readable src s b) : Reads src b s s [] [] :=
  ⟨h, Looked.refl s, hb, .nil⟩

theorem extend (h : Reads src b s s₁ regs values) {more : List Reg} {found : List Operand}
    (hinv : Inv src s₂) (hlooked : Looked s₁ s₂) (hmore : List.Forall₂ (HoldsIn s₂ b) more found) :
    Reads src b s s₂ (regs ++ more) (values ++ found) :=
  ⟨hinv, h.looked.trans hlooked, h.readable.mono hlooked.toExtends,
    List.rel_append (h.holds.imp fun _ _ hv => hv.mono hlooked.toExtends) hmore⟩

end Reads

theorem run_read (reg : Reg) :
    (read src b reg).run s =
      if reg < src.code.registers then
        match (blockState s b).written.lookup reg with
        | some v => .ok (v, s)
        | none => (readAtEntry src reg (depthBound src) b).run s
      else .error (.registerOutside reg) := by
  unfold read checkRegister
  split
  · simp only [StateT.run_bind, StateT.run_get, pure_bind]
    cases (blockState s b).written.lookup reg with
    | some v => rfl
    | none => rfl
  · rfl

theorem holdsIn_of_read (h : Inv src s) (hb : Readable src s b)
    (hrun : (read src b reg).run s = .ok (v, s')) :
    Inv src s' ∧ Looked s s' ∧ HoldsIn s' b reg v := by
  rw [run_read] at hrun
  split at hrun
  · split at hrun
    · rename_i value hvalue
      obtain ⟨rfl, rfl⟩ : value = v ∧ s = s' := by simpa using hrun
      exact ⟨h, Looked.refl s, .inl hvalue⟩
    · rename_i hnone
      obtain ⟨hinv, hlooked, hmem⟩ := readsEntry_of_run h hb hrun
      refine ⟨hinv, hlooked, .inr ⟨?_, hmem⟩⟩
      rw [hlooked.written b]
      exact hnone
  · cases hrun

section

variable {regs : List Reg} {values : List Operand} {s₁ s₂ : State}

section

variable (h : Reads src b s s₁ regs values)
include h

theorem Reads.read (hrun : (read src b reg).run s₁ = .ok (v, s₂)) :
    Reads src b s s₂ (regs ++ [reg]) (values ++ [v]) := by
  obtain ⟨hinv, hlooked, hholds⟩ := holdsIn_of_read h.inv h.readable hrun
  exact h.extend hinv hlooked (.cons hholds .nil)

theorem Reads.mapM {more : List Reg} {vs : List Operand}
    (hrun : (more.mapM (Lift.read src b)).run s₁ = .ok (vs, s₂)) :
    Reads src b s s₂ (regs ++ more) (values ++ vs) := by
  obtain ⟨⟨hinv, -⟩, hlooked, hall⟩ := run_mapM_eq_ok
    (fun s => Inv src s ∧ Readable src s b) Looked
    (fun s reg v => HoldsIn s b reg v) Looked.refl Looked.trans
    (fun hlooked hholds => hholds.mono hlooked.toExtends)
    (fun reg _ s₁ v s₂ hs₁ hread => by
      obtain ⟨hinv, hlooked, hholds⟩ := holdsIn_of_read hs₁.1 hs₁.2 hread
      exact ⟨⟨hinv, hs₁.2.mono hlooked.toExtends⟩, hlooked, hholds⟩)
    ⟨h.inv, h.readable⟩ hrun
  exact h.extend hinv hlooked hall

theorem Reads.optionMapM {reg : Option Reg} {v : Option Operand}
    (hrun : (reg.mapM (Lift.read src b)).run s₁ = .ok (v, s₂)) :
    Reads src b s s₂ (regs ++ reg.toList) (values ++ v.toList) := by
  cases reg with
  | none =>
    rw [Option.mapM_none, run_pure_eq_ok] at hrun
    obtain ⟨rfl, rfl⟩ := hrun
    simpa using h
  | some reg =>
    rw [Option.mapM_some, run_map_eq_ok] at hrun
    obtain ⟨a, hread, rfl⟩ := hrun
    exact h.read hread

end

end

/-! ## Writing -/

def put (s : State) (b : BlockId) (reg : Reg) (v : Operand) : State :=
  { s with blocks := s.blocks.modify b fun st => { st with written := (reg, v) :: st.written } }

def withValue (s : State) (type : ValueType) : State := { s with body := s.body.addValue type }

theorem run_write (reg : Reg) (v : Operand) :
    (write src b reg v).run s =
      if reg < src.code.registers then .ok ((), put s b reg v)
        else .error (.registerOutside reg) := by
  unfold write checkRegister
  split <;> rfl

theorem run_write_eq_ok {u : Unit} :
    (write src b reg v).run s = .ok (u, s') ↔ reg < src.code.registers ∧ s' = put s b reg v := by
  rw [run_write]
  split
  · grind
  · grind

theorem run_define_eq_ok {type : ValueType} :
    (define src b reg type).run s = .ok (v, s') ↔
      reg < src.code.registers ∧ v = s.body.valueCount ∧
        s' = put (withValue s type) b reg s.body.valueCount := by
  unfold define
  simp only [run_bind_eq_ok, run_newValue, run_write_eq_ok, run_pure_eq_ok]
  constructor
  · rintro ⟨a, s₁, heq, u, s₂, ⟨hreg, hs₂⟩, hv, hs'⟩
    cases heq
    exact ⟨hreg, hv, hs'.trans hs₂⟩
  · rintro ⟨hreg, rfl, rfl⟩
    exact ⟨_, _, rfl, (), _, ⟨hreg, rfl⟩, rfl, rfl⟩

/-! ## One instruction -/

def Renders (src : Source) (holds : Reg → Operand → Prop) (index : Nat)
    (i : Instruction) (op : Op) :
    Prop :=
  (i.effect index).Corresponds holds (fun target t => src.layout.blockAt target = .ok t) op.effect

namespace Renders

variable {holds : Reg → Operand → Prop} {index : Nat} {i : Instruction} {op : Op}

theorem mono (h : Renders src holds index i op) {holds' : Reg → Operand → Prop}
    (hmono : ∀ reg v, holds reg v → holds' reg v) : Renders src holds' index i op :=
  h.imp hmono fun _ _ => id

variable (h : Renders src holds index i op)
include h

theorem isTerminator_eq : op.isTerminator = i.isBranch := by
  simpa using h.leaves_eq

theorem canThrow_eq : op.canThrow = i.canThrow := by
  simpa using Effect.Corresponds.canThrow_eq h

theorem targets : List.Forall₂ (fun target t => src.layout.blockAt target = .ok t)
    (i.targets ++ if i.isBranch && !i.endsFlow then [index + 1] else []) op.targets := by
  simpa [Instruction.targets_effect] using h.forall₂_targets

theorem exists_holds (hv : v ∈ op.uses) : ∃ reg, holds reg v := by
  rw [← Op.operands_effect] at hv
  obtain ⟨reg, -, hreg⟩ := Fallible.exists_left_of_forall₂ h.forall₂_operands hv
  exact ⟨reg, hreg⟩

theorem not_argument : op.isArgument = false := by
  cases op with
  | argument dest index =>
    unfold Renders at h
    cases i <;> cases h
  | _ => rfl

theorem not_moveResult : i.isMoveResult = false := by
  cases i with
  | moveResult dest => cases h
  | _ => rfl

theorem exception (hop : op.isMoveException = true) : ∃ dest, i = .moveException dest := by
  cases op with
  | moveException v =>
    unfold Renders at h
    cases i with
    | moveException dest => exact ⟨dest, rfl⟩
    | _ => cases h
  | _ => cases hop

end Renders

def pickedUp (i : Instruction) : Option Instruction → Option Reg
  | some (.moveResult dest) => if i.hasPendingResult then some dest else none
  | _ => none

theorem takesResult_eq (i : Instruction) (next : Option Instruction) :
    takesResult i next = (pickedUp i next).isSome := by
  unfold pickedUp
  split
  · cases h : i.hasPendingResult <;> simp [takesResult, h, Instruction.isMoveResult]
  · rename_i hnot
    cases next with
    | none => simp [takesResult]
    | some j =>
      cases j with
      | moveResult dest => exact absurd rfl (hnot dest)
      | _ => simp [takesResult, Instruction.isMoveResult]

theorem pickedUp_eq_some {dest : Reg} (h : pickedUp i next = some dest) :
    next = some (.moveResult dest) := by
  unfold pickedUp at h
  split at h
  · grind
  · cases h

theorem pickedUp_of_not_pending (h : i.hasPendingResult = false) (next : Option Instruction) :
    pickedUp i next = none := by
  unfold pickedUp
  split
  · simp [h]
  · rfl

/-- Where the result of an instruction goes: nowhere, to its own register, or to the one it is moved
to next. -/
inductive Receives (e : Effect) : Option Operand → Registers → Option Reg → Prop where
  | nowhere : e.dest? = none → Receives e none [] none
  | own {reg : Reg} {v : Operand} : e.dest? = some reg → Receives e (some v) [(reg, v)] none
  | next {reg : Reg} {v : Operand} : e.dest? = none → Receives e (some v) [(reg, v)] (some reg)

theorem Receives.dest_eq_none {e : Effect} {dest : Option Operand} {pending : Option Reg}
    (h : Receives e dest [] pending) : dest = none := by
  cases h
  rfl

/-- What becomes of an instruction after its registers are read in `s₁`: nothing, a copy, an
operation without a result, or one whose result is a new value. -/
inductive Yields (src : Source) (b : BlockId) (index : Nat) (next : Option Instruction)
    (i : Instruction) (s₁ : State) : Option Op → State → Prop where
  | nothing : i = .nop → Yields src b index next i s₁ none s₁
  | copy {reg source : Reg} {v : Operand} : i = .move reg source → HoldsIn s₁ b source v →
      Yields src b index next i s₁ none (put s₁ b reg v)
  | effect {op : Op} : Renders src (HoldsIn s₁ b) index i op →
      Receives (i.effect index) op.dest? [] (pickedUp i next) →
      Yields src b index next i s₁ (some op) s₁
  | result {op : Op} {reg : Reg} {type : ValueType} : Renders src (HoldsIn s₁ b) index i op →
      op.dest? = some s₁.body.valueCount →
      Receives (i.effect index) op.dest? [(reg, s₁.body.valueCount)] (pickedUp i next) →
      Yields src b index next i s₁ (some op)
        (put (withValue s₁ type) b reg s₁.body.valueCount)

theorem forall₂_of_mapM_blockAt {targets : List Nat} {blocks : List BlockId}
    (h : (targets.mapM fun t => (liftM (src.layout.blockAt t) : LiftM BlockId)).run s =
      .ok (blocks, s')) :
    s' = s ∧ List.Forall₂ (fun target t => src.layout.blockAt target = .ok t) targets blocks := by
  have := run_mapM_eq_ok (fun s₁ => s₁ = s) (fun _ _ => True)
    (fun _ target t => src.layout.blockAt target = .ok t) (fun _ => trivial)
    (fun _ _ => trivial) (fun _ h => h) (fun t _ s₁ a s₂ hs₁ hrun => by
      rw [run_lift_eq_ok] at hrun
      exact ⟨hrun.2.trans hs₁, trivial, hrun.1⟩) rfl h
  exact ⟨this.1, this.2.2⟩

theorem dest?_of_hasPendingResult (h : i.hasPendingResult = true) (index : Nat) :
    (i.effect index).dest? = none := by
  cases i <;> first | rfl | cases h

theorem yields_of_pendingResult {type : Option ValueType} {dest : Option Operand}
    (h : (pendingResult src b index type next).run s = .ok (dest, s'))
    (hi : i.hasPendingResult = true)
    (hop : Renders src (HoldsIn s b) index i op) (hdest : op.dest? = dest) :
    Yields src b index next i s (some op) s' := by
  have hnone := dest?_of_hasPendingResult hi index
  unfold pendingResult at h
  split at h
  · rename_i reg
    split at h
    · rw [run_map_eq_ok] at h
      obtain ⟨v, hdefine, rfl⟩ := h
      obtain ⟨-, rfl, rfl⟩ := run_define_eq_ok.1 hdefine
      refine .result hop hdest ?_
      rw [hdest, pickedUp, if_pos hi]
      exact .next hnone
    · rw [run_throw] at h
      cases h
  · rename_i hnot
    rw [run_pure_eq_ok] at h
    obtain ⟨rfl, rfl⟩ := h
    refine .effect hop ?_
    have hpicked : pickedUp i next = none := by
      cases hpicked : pickedUp i next with
      | none => rfl
      | some reg => exact absurd (pickedUp_eq_some hpicked) (hnot reg)
    rw [hdest, hpicked]
    exact .nowhere hnone

theorem yields_of_define {type : ValueType} (h : (define src b reg type).run s = .ok (v, s'))
    (hi : i.hasPendingResult = false) (hreg : (i.effect index).dest? = some reg)
    (hop : Renders src (HoldsIn s b) index i op) (hdest : op.dest? = some v) :
    Yields src b index next i s (some op) s' := by
  obtain ⟨-, rfl, rfl⟩ := run_define_eq_ok.1 h
  refine .result hop hdest ?_
  rw [hdest, pickedUp_of_not_pending hi]
  exact .own hreg

theorem yields_of_no_dest (hi : i.hasPendingResult = false) (hnone : (i.effect index).dest? = none)
    (hop : Renders src (HoldsIn s b) index i op) (hdest : op.dest? = none) :
    Yields src b index next i s (some op) s := by
  refine .effect hop ?_
  rw [hdest, pickedUp_of_not_pending hi]
  exact .nowhere hnone

theorem run_moveException_eq_ok {dest : Reg} {op? : Option Op} :
    (operation src b index next (.moveException dest)).run s = .ok (op?, s') ↔
      isHandlerEntry src s b = true ∧
      ∃ v, (define src b dest .reference).run s = .ok (v, s') ∧ op? = some (.moveException v) := by
  rw [operation]
  change (if !isHandlerEntry src s b then _ else _ : LiftM (Option Op)).run s = _ ↔ _
  split <;> simp only [run_bind_eq_ok, run_pure_eq_ok, run_throw] <;> grind

/-- An instruction reads, and then it yields what it stands for. -/
theorem yields_of_operation (h : Inv src s) (hb : Readable src s b) {op? : Option Op}
    (hrun : (operation src b index next i).run s = .ok (op?, s')) :
    ∃ s₁ regs values, Reads src b s s₁ regs values ∧ Yields src b index next i s₁ op? s' := by
  have hnil := Reads.nil h hb
  cases i with
  | nop =>
    simp only [operation, run_pure_eq_ok] at hrun
    obtain ⟨rfl, rfl⟩ := hrun
    exact ⟨s', [], [], hnil, .nothing rfl⟩
  | line number =>
    simp only [operation, run_pure_eq_ok] at hrun
    obtain ⟨rfl, rfl⟩ := hrun
    exact ⟨s', [], [], hnil, yields_of_no_dest rfl rfl .line rfl⟩
  | move dest source =>
    simp only [operation, run_bind_eq_ok, run_pure_eq_ok] at hrun
    obtain ⟨v, s₁, hread, u, s₂, hwrite, rfl, rfl⟩ := hrun
    obtain ⟨-, rfl⟩ := run_write_eq_ok.1 hwrite
    have hreads := hnil.read hread
    exact ⟨s₁, _, _, hreads, .copy rfl (List.forall₂_cons.1 hreads.holds).1⟩
  | moveResult dest =>
    rw [operation, run_throw] at hrun
    cases hrun
  | moveException dest =>
    obtain ⟨-, v, hdefine, rfl⟩ := run_moveException_eq_ok.1 hrun
    exact ⟨s, [], [], hnil, yields_of_define hdefine rfl rfl .caught rfl⟩
  | const dest _ | constString dest _ _ | newInstance dest _ | staticGet dest _ =>
    simp only [operation, run_bind_eq_ok, run_pure_eq_ok] at hrun
    obtain ⟨v, t, hdefine, rfl, rfl⟩ := hrun
    exact ⟨s, _, _, hnil, yields_of_define hdefine rfl rfl (.act .nil) rfl⟩
  | newArray dest x
      _ | arrayLength dest x | instanceGet dest x _ | checkCast x _ | instanceOf dest x _ =>
    simp only [operation, run_bind_eq_ok, run_pure_eq_ok] at hrun
    obtain ⟨v₁, t₁, hread₁, v, t, hdefine, rfl, rfl⟩ := hrun
    have hreads := hnil.read hread₁
    exact ⟨_, _, _, hreads, yields_of_define hdefine rfl rfl (.act hreads.holds) rfl⟩
  | binary _ _ dest x y | arrayGet dest x y _ =>
    simp only [operation, run_bind_eq_ok, run_pure_eq_ok] at hrun
    obtain ⟨v₁, t₁, hread₁, v₂, t₂, hread₂, v, t, hdefine, rfl, rfl⟩ := hrun
    have hreads := (hnil.read hread₁).read hread₂
    exact ⟨_, _, _, hreads, yields_of_define hdefine rfl rfl (.act hreads.holds) rfl⟩
  | staticPut x _ | throw x =>
    simp only [operation, run_bind_eq_ok, run_pure_eq_ok] at hrun
    obtain ⟨v₁, t₁, hread₁, rfl, rfl⟩ := hrun
    have hreads := hnil.read hread₁
    exact ⟨_, _, _, hreads, yields_of_no_dest rfl rfl (.act hreads.holds) rfl⟩
  | instancePut value object field =>
    simp only [operation, run_bind_eq_ok, run_pure_eq_ok] at hrun
    obtain ⟨v₁, t₁, hread₁, v₂, t₂, hread₂, rfl, rfl⟩ := hrun
    have hreads := (hnil.read hread₁).read hread₂
    exact ⟨_, _, _, hreads, yields_of_no_dest rfl rfl (.act hreads.holds) rfl⟩
  | arrayPut value array index type =>
    simp only [operation, run_bind_eq_ok, run_pure_eq_ok] at hrun
    obtain ⟨v₁, t₁, hread₁, v₂, t₂, hread₂, v₃, t₃, hread₃, rfl, rfl⟩ := hrun
    have hreads := ((hnil.read hread₁).read hread₂).read hread₃
    exact ⟨_, _, _, hreads, yields_of_no_dest rfl rfl (.act hreads.holds) rfl⟩
  | unary op dest source =>
    simp only [operation, run_bind_eq_ok, run_pure_eq_ok] at hrun
    obtain ⟨v₁, t₁, hread₁, _, _, hget, v, t, hdefine, rfl, rfl⟩ := hrun
    cases hget
    have hreads := hnil.read hread₁
    exact ⟨_, _, _, hreads, yields_of_define hdefine rfl rfl (.act hreads.holds) rfl⟩
  | ret value =>
    simp only [operation, run_bind_eq_ok, run_pure_eq_ok] at hrun
    obtain ⟨v₁, t₁, hread₁, rfl, rfl⟩ := hrun
    have hreads := hnil.optionMapM hread₁
    exact ⟨_, _, _, hreads, yields_of_no_dest rfl rfl (.ret hreads.holds) rfl⟩
  | goto target =>
    simp only [operation, run_bind_eq_ok, run_pure_eq_ok, run_lift_eq_ok] at hrun
    obtain ⟨t, _, ⟨htarget, rfl⟩, rfl, rfl⟩ := hrun
    exact ⟨_, [], [], hnil, yields_of_no_dest rfl rfl (.goto htarget) rfl⟩
  | branch cond left right target =>
    simp only [operation, run_bind_eq_ok, run_pure_eq_ok, run_lift_eq_ok] at hrun
    obtain ⟨v₁, t₁, hread₁, v₂, t₂, hread₂, t, _, ⟨htarget, rfl⟩, f, _, ⟨hnext, rfl⟩, rfl, rfl⟩ :=
      hrun
    have hreads := (hnil.read hread₁).optionMapM hread₂
    obtain ⟨hleft, hright⟩ := List.forall₂_cons.1 hreads.holds
    exact ⟨_, _, _, hreads, yields_of_no_dest rfl rfl (.branch hleft hright htarget hnext) rfl⟩
  | switch value keys targets =>
    simp only [operation, run_bind_eq_ok, run_pure_eq_ok, run_lift_eq_ok] at hrun
    obtain ⟨v₁, t₁, hread₁, blocks, t₂, htargets, d, _, ⟨hnext, rfl⟩, rfl, rfl⟩ := hrun
    obtain ⟨rfl, hall⟩ := forall₂_of_mapM_blockAt htargets
    have hreads := hnil.read hread₁
    have hvalue := (List.forall₂_cons.1 hreads.holds).1
    exact ⟨_, _, _, hreads, yields_of_no_dest rfl rfl (.switch hvalue hall hnext) rfl⟩
  | invoke _ _ args | invokeCustom _ args | filledNewArray _ args =>
    simp only [operation, run_bind_eq_ok, run_pure_eq_ok] at hrun
    obtain ⟨vs, t₁, hargs, dest, t₂, hpending, rfl, rfl⟩ := hrun
    have hreads := hnil.mapM hargs
    exact ⟨_, _, _, hreads, yields_of_pendingResult hpending rfl (.act hreads.holds) rfl⟩

end BytecodeOpt.Ssa.Lift
