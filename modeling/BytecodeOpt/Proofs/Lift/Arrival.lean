import BytecodeOpt.Proofs.Lift.Execution

/-!
# Ways through code

Control can come to an instruction in many ways, and each has written some registers by then.  Code
that was lifted reads only what every way has written: where a lookup finds a value for a register,
it finds one on each edge into the block.
-/

namespace BytecodeOpt

open Execution

namespace Code

/-- The ways through code from its start: the registers that were written, and the instruction
control has come to.  An exception leaves an instruction before that writes. -/
inductive Arrives (code : Code) : List Reg → Nat → Prop where
  | start : Arrives code [] 0
  | next {written : List Reg} {index target : Nat} {i : Instruction} : Arrives code written index →
      code.instructions[index]? = some i → target ∈ i.targets ++ (if i.endsFlow then []
        else [index + 1]) →
      Arrives code ((i.effect index).dest?.toList ++ written) target
  | raise {written : List Reg} {index : Nat} {i : Instruction} {handler : Handler} :
      Arrives code written index →
      code.instructions[index]? = some i → i.canThrow = true → handler ∈ code.handlersAt index →
      Arrives code written handler.target

/-- Whatever an instruction reads was written on every way there, or is an argument. -/
def Defined (code : Code) : Prop :=
  ∀ written index i, code.Arrives written index → code.instructions[index]? = some i →
    ∀ reg ∈ (i.effect index).operands, reg ∈ written ∨ reg < code.ins

end Code

namespace Ssa.Lift

variable {src : Source} {types : List ValueType} {s : State} {c t : BlockId}
  {pc k : Nat} {reg : Reg}
  {written : List Reg} {f f₁ : Frame} {i : Instruction} {new ops tail : List Op}
  {rest : List Instruction}

/-- Nothing is known of a register that a way has left unwritten, unless a result is about to be
moved there. -/
def Unfound (src : Source) (st : BlockState) (written : List Reg) (f : Frame) : Prop :=
  ∀ reg, reg ∉ written → src.code.ins ≤ reg → f.pending = some reg ∨ ∀ v,
    ¬ Holds f.written st.atEntry reg v

theorem Unfound.becomes {st : BlockState} (h : Unfound src st written f)
    (hbecomes : Becomes src c st pc f i new f₁) :
    Unfound src st ((i.effect pc).dest?.toList ++ written) f₁ := by
  intro reg hreg hins
  rw [List.mem_append, not_or, Option.mem_toList] at hreg
  have hold := h reg hreg.2 hins
  cases hbecomes with
  | taken => exact .inr (hold.resolve_left fun hpending => hreg.1 hpending)
  | nothing => exact hold
  | copy _ =>
    refine .inr fun v hv => ?_
    rcases holds_cons hv with ⟨rfl, -⟩ | ⟨-, hv⟩
    · exact hreg.1 rfl
    · exact hold.resolve_left (by simp) v hv
  | @op regs added _ op pending _ hreceives _ =>
    have hold := hold.resolve_left (by simp)
    generalize op.dest? = dest at hreceives
    cases hreceives with
    | nowhere _ => exact .inr hold
    | own hdest =>
      refine .inr fun v hv => ?_
      rcases holds_cons hv with ⟨rfl, -⟩ | ⟨-, hv⟩
      · exact hreg.1 hdest
      · exact hold v hv
    | @next dest _ _ =>
      by_cases heq : dest = reg
      · exact .inl (congrArg some heq)
      · refine .inr fun v hv => ?_
        rcases holds_cons hv with ⟨rfl, -⟩ | ⟨-, hv⟩
        · exact heq rfl
        · exact hold v hv

/-- The blocks have a place for an instruction, and nothing is known there of what a way has left
unwritten. -/
def Stands (src : Source) (s : State) (written : List Reg) (pc : Nat) : Prop :=
  ∃ c k f i rest ops tail, Standing src s c pc k f (i :: rest) ops tail ∧
    Unfound src (blockState s c) written f

section

variable (hsound : Layout.Sound src.code src.layout) (h : Complete src types s)
include hsound h

/-- Nothing is known where a block is entered of what was unknown where the one before was left. -/
theorem Complete.stands_enter {regs : Registers} (hat : src.layout.blockAt pc = .ok t)
    (hexit : c ∈ src.layout.preds t ∧ writtenTowards src s c t = regs)
    (hunfound : Unfound src (blockState s c) written ⟨regs, none⟩) : Stands src s written pc := by
  obtain ⟨hsome, ops, tail, hstand⟩ := h.standing_enter hsound hat
  obtain ⟨i, rest, hcons⟩ := List.exists_cons_of_ne_nil hsome
  rw [hcons] at hstand
  refine ⟨t, 0, {}, i, rest, ops, tail, hstand, fun reg hreg hins => .inr fun v hv => ?_⟩
  have hnone := (hunfound reg hreg hins).resolve_left (by simp)
  exact hnone _ (hexit.2 ▸ h.holds_picks hsound hexit.1 (hv.mem.resolve_left (by simp)))

theorem Complete.stands_start (hins : src.code.ins = types.length) : Stands src s [] 0 := by
  have hpos : 0 < src.layout.blocks.size := Nat.lt_trans Nat.one_pos hsound.size
  obtain ⟨dests, target, hops, hlength, hwritten, hat⟩ := h.exists_entry hsound
  have hget : (s.body.block 0).ops[dests.length]? = some (.goto target) := by
    simp [hops, argumentOps]
  have hexit := h.normal_exit hsound hpos hget rfl (List.mem_singleton_self target)
  refine h.stands_enter hsound hat hexit fun reg _ hreg => .inr fun v hv => ?_
  rw [hwritten] at hv
  have hmem := hv.mem.resolve_right (h.not_mem_atEntry hsound)
  obtain ⟨x, hx, hswap⟩ := List.mem_map.1 (List.mem_reverse.1 hmem)
  have hlt := (List.getElem?_eq_some_iff.1 (List.mem_zipIdx_iff_getElem?.1 hx)).1
  obtain rfl : x.2 = reg := congrArg Prod.fst hswap
  omega

/-- What is known goes with control from an instruction to the one it goes on with. -/
theorem Complete.stands_next (hstand : Standing src s c pc k f (i :: rest) ops tail)
    (hunfound : Unfound src (blockState s c) written f) {target : Nat}
    (htarget : target ∈ i.targets ++ (if i.endsFlow then [] else [pc + 1])) :
    Stands src s ((i.effect pc).dest?.toList ++ written) target := by
  have htrans := hstand.translates
  generalize hend : ({ written := (blockState s c).written } : Frame) = last at htrans
  cases htrans with
  | @cons _ _ f₁ _ _ _ new ops hbecomes hrest =>
    subst hend
    have hunfound₁ := hunfound.becomes hbecomes
    cases hbranch : i.isBranch with
    | false =>
      obtain ⟨htargets, hflow⟩ := falls_of_not_branch hbranch
      obtain rfl : target = pc + 1 := by simpa [htargets, hflow] using htarget
      have hstand₁ := hstand.next hbecomes hrest hbranch
      cases rest with
      | cons j rest => exact ⟨c, _, f₁, j, rest, ops, tail, hstand₁, hunfound₁⟩
      | nil =>
        -- the block is left by the jump behind its instructions
        obtain ⟨b, hop, hat⟩ := hstand₁.jump hsound
        have hexit := h.normal_exit hsound hstand.inside hop rfl (List.mem_singleton_self b)
        cases hrest
        exact h.stands_enter hsound hat hexit hunfound₁
    | true =>
      obtain rfl := hstand.last hsound hbranch
      cases hrest
      generalize hframe : ({ written := (blockState s c).written } : Frame) = last at hbecomes
      cases hbecomes with
      | taken | nothing | copy _ => cases hbranch
      | @op regs added _ op pending hrender _ _ =>
        have htarget' : target ∈ i.targets ++ if i.isBranch && !i.endsFlow then [pc + 1]
            else [] := by
          cases hflow : i.endsFlow <;> simpa [hbranch, hflow] using htarget
        obtain ⟨b, hb, hat⟩ := Fallible.exists_right_of_forall₂ hrender.targets htarget'
        have hexit := h.normal_exit hsound hstand.inside hstand.operation
          (hrender.isTerminator_eq.trans hbranch) hb
        exact h.stands_enter hsound hat hexit hunfound₁

theorem Complete.stands_raise (hstand : Standing src s c pc k f (i :: rest) ops tail)
    (hunfound : Unfound src (blockState s c) written f) (hthrow : i.canThrow = true)
    {handler : Handler}
    (hh : handler ∈ src.code.handlersAt pc) : Stands src s written handler.target := by
  have hdescribes := hsound.describes c (Nat.pos_of_ne_zero hstand.inner) hstand.inside
  obtain ⟨hstart, hstop, hget⟩ := hstand.instruction
  obtain ⟨hhandlers, hthrowing⟩ := hdescribes.handlers_of_throw hstart hstop
    (by rwa [getD_eq_of_getElem? hget])
  obtain ⟨handler', hmem, hat, -⟩ := Fallible.exists_right_of_forall₂ hhandlers hh
  have htrans := hstand.translates
  generalize ({ written := (blockState s c).written } : Frame) = last at htrans
  cases htrans with
  | cons hbecomes _ =>
    cases hbecomes with
    | taken | nothing | copy _ => cases hthrow
    | op _ _ hnote =>
      have hexit := h.exceptional_exit hsound hstand.inside hmem
        (hnote (hthrowing (List.ne_nil_of_mem hmem)))
      exact h.stands_enter hsound hat hexit hunfound

theorem Complete.stands_of_arrives (hins : src.code.ins = types.length)
    (harrives : src.code.Arrives written pc) :
    Stands src s written pc := by
  induction harrives with
  | start => exact h.stands_start hsound hins
  | next _ hget htarget ih =>
    obtain ⟨c, k, f, i', rest, ops, tail, hstand, hunfound⟩ := ih
    obtain rfl := Option.some.inj (hget.symm.trans hstand.instruction.2.2)
    exact h.stands_next hsound hstand hunfound htarget
  | raise _ hget hthrow hh ih =>
    obtain ⟨c, k, f, i', rest, ops, tail, hstand, hunfound⟩ := ih
    obtain rfl := Option.some.inj (hget.symm.trans hstand.instruction.2.2)
    exact h.stands_raise hsound hstand hunfound hthrow hh

/-- Where all blocks are complete, an instruction reads only what every way to it has written. -/
theorem Complete.defined (hins : src.code.ins = types.length) : src.code.Defined := by
  intro written pc i harrives hget reg hreg
  by_contra hnot
  rw [not_or, Nat.not_lt] at hnot
  obtain ⟨c, k, f, i', rest, ops, tail, hstand, hunfound⟩ :=
    h.stands_of_arrives hsound hins harrives
  obtain rfl := Option.some.inj (hget.symm.trans hstand.instruction.2.2)
  have hnone := hunfound reg hnot.1 hnot.2
  have htrans := hstand.translates
  generalize ({ written := (blockState s c).written } : Frame) = last at htrans
  cases htrans with
  | cons hbecomes _ =>
    cases hbecomes with
    | taken | nothing => cases hreg
    | copy hv =>
      obtain rfl := List.mem_singleton.1 hreg
      exact hnone.resolve_left (by simp) _ hv
    | op hrender _ _ =>
      obtain ⟨v, -, hv⟩ := Fallible.exists_right_of_forall₂ hrender.forall₂_operands hreg
      exact hnone.resolve_left (by simp) v hv

end

end Ssa.Lift

end BytecodeOpt
