import BytecodeOpt.Proofs.Lift.Arrival
import BytecodeOpt.Proofs.Lift.Depth

/-!
# Lookups that are answered

A register that every way to a block has written can be looked up there.  Over each edge into the
block the one before has written it, or every way to that has.
-/

namespace BytecodeOpt

open Execution

variable {code : Code} {reg : Reg} {start stop : Nat} {written : List Reg}

/-! ## From block to block -/

/-- No instruction of the stretch writes the register. -/
def Code.Spares (code : Code) (reg : Reg) (start stop : Nat) : Prop :=
  ∀ index i, start ≤ index → index < stop → code.instructions[index]? = some i →
    (i.effect index).dest? ≠ some reg

theorem Code.Arrives.walk (h : code.Arrives written start) (hle : start ≤ stop)
    (hstop : stop ≤ code.instructions.length)
    (hinner : ∀ index, start ≤ index → index < stop →
      (code.instructions.getD index .nop).isBranch = false) :
    ∃ written', code.Arrives written' stop ∧ ∀ reg, reg ∉ written → code.Spares reg start stop →
      reg ∉ written' := by
  induction stop, hle using Nat.le_induction with
  | base => exact ⟨written, h, fun reg hreg _ => hreg⟩
  | succ stop hle ih =>
    obtain ⟨before, hbefore, hkept⟩ := ih (by omega) fun index hstart hlt =>
      hinner index hstart (by omega)
    have hget := List.getElem?_eq_getElem (l := code.instructions) (i := stop) (by omega)
    have hbranch := hinner stop hle (by omega)
    rw [List.getD_eq_getElem?_getD, hget, Option.getD_some] at hbranch
    obtain ⟨htargets, hflow⟩ := Ssa.Lift.falls_of_not_branch hbranch
    refine ⟨_, hbefore.next hget (by simp [htargets, hflow]), fun reg hreg hspares => ?_⟩
    rw [List.mem_append, Option.mem_toList, not_or]
    exact ⟨hspares stop _ hle (by omega) hget,
      hkept reg hreg fun index i hstart hlt hi => hspares index i hstart (by omega) hi⟩

namespace Ssa

/-- Up to where a block is run when control leaves it for another. -/
def Layout.exitIndex (layout : Layout) (p b : BlockId) : Nat :=
  if layout.isExceptional p b then (layout.block p).throwing.getD (layout.block p).stop
    else (layout.block p).stop

namespace Lift

variable {src : Source} {types : List ValueType} {s s' : State} {b c p : BlockId}
  {v : Operand} {depth : Nat}

/-- A way to a block goes on to the blocks behind it. -/
theorem exists_arrives_of_edge (hsound : Layout.Sound src.code src.layout) (hp : 0 < p)
    (hlt : p < src.layout.blocks.size) (hedge : b ∈ src.layout.successors p)
    (h : src.code.Arrives written (src.layout.block p).start) :
    ∃ written', src.code.Arrives written' (src.layout.block b).start ∧ ∀ reg, reg ∉ written →
      src.code.Spares reg (src.layout.block p).start (src.layout.exitIndex p b) →
        reg ∉ written' := by
  have hdescribes := hsound.describes p hp hlt
  have hstart := hdescribes.start_lt
  have hstop := hdescribes.stop_le
  obtain ⟨next, hnext, hsuccessors, hunmixed⟩ := hdescribes.next
  rw [Layout.successors, hsuccessors, List.mem_eraseDups, List.mem_append] at hedge
  rcases hedge with hedge | hedge
  · have hnormal : src.layout.isExceptional p b = false := by
      simp only [Layout.isExceptional, List.any_eq_false, beq_iff_eq]
      rintro handler hh rfl
      exact hunmixed handler hh hedge
    obtain ⟨target, htarget, hat⟩ := Fallible.exists_left_of_forall₂ hnext hedge
    obtain ⟨-, -, hb⟩ := Layout.blockAt_eq_ok hat
    obtain ⟨last, hlast⟩ : ∃ last, (src.layout.block p).stop = last + 1 :=
      ⟨_, (Nat.succ_pred (by omega)).symm⟩
    obtain ⟨before, hbefore, hkept⟩ := h.walk (Nat.le_of_lt_succ (hlast ▸ hstart)) (by omega)
      fun index hindex hlt => hdescribes.inner index hindex (by omega)
    have hget := List.getElem?_eq_getElem (l := src.code.instructions) (i := last) (by omega)
    rw [Layout.nextOf, hlast, Nat.add_sub_cancel, List.getD_eq_getElem?_getD, hget,
      Option.getD_some] at htarget
    refine ⟨_, hb ▸ hbefore.next hget htarget, fun reg hreg hspares => ?_⟩
    simp only [Layout.exitIndex, hnormal, Bool.false_eq_true, if_false, hlast] at hspares
    rw [List.mem_append, Option.mem_toList, not_or]
    exact ⟨hspares last _ (by omega) (by omega) hget,
      hkept reg hreg fun index i hindex hlt hi => hspares index i hindex (by omega) hi⟩
  · obtain ⟨handler, hh, rfl⟩ := List.mem_map.1 hedge
    have hexceptional : src.layout.isExceptional p handler.target = true :=
      List.any_eq_true.2 ⟨handler, hh, by simp⟩
    obtain ⟨index, hthrow⟩ : ∃ index, (src.layout.block p).throwing = some index := by
      refine Option.ne_none_iff_exists'.1 fun hnone => ?_
      simp [hdescribes.none hnone] at hh
    obtain ⟨hthrows, -, -, hhandlers⟩ := hdescribes.some index hthrow
    have hlt := hthrows.lt_stop
    obtain ⟨handler', hh', hat, -⟩ := Fallible.exists_left_of_forall₂ hhandlers hh
    obtain ⟨-, -, hb⟩ := Layout.blockAt_eq_ok hat
    obtain ⟨before, hbefore, hkept⟩ := h.walk hthrows.start_le (by omega)
      fun j hj hlt => hdescribes.inner j hj (by omega)
    have hget := List.getElem?_eq_getElem (l := src.code.instructions) (i := index) (by omega)
    have hcan := hthrows.throws
    rw [List.getD_eq_getElem?_getD, hget, Option.getD_some] at hcan
    refine ⟨before, hb ▸ hbefore.raise hget hcan hh', fun reg hreg hspares => hkept reg hreg ?_⟩
    simpa only [Layout.exitIndex, hexceptional, if_true, hthrow, Option.getD_some] using hspares

theorem exists_arrives (hsound : Layout.Sound src.code src.layout) (hb : 0 < b)
    (hlt : b < src.layout.blocks.size) :
    ∃ written, src.code.Arrives written (src.layout.block b).start := by
  have hreach := hsound.reachable b hlt
  clear hlt
  induction hreach with
  | refl _ _ => exact absurd hb (Nat.lt_irrefl 0)
  | @snoc q c hpath hedge _ _ ih =>
    rw [Layout.successors_graph] at hedge
    rcases Nat.eq_zero_or_pos q with rfl | hq
    · rw [Layout.successors, hsound.entry, List.mem_singleton] at hedge
      rw [hedge, hsound.first]
      exact ⟨[], .start⟩
    · obtain ⟨written, harrives⟩ := ih hq
      obtain ⟨written', harrives', -⟩ := exists_arrives_of_edge hsound hq
        (by rw [← Layout.size_graph]; exact hpath.lt_size) hedge harrives
      exact ⟨written', harrives'⟩

/-! ## What a block writes -/

/-- A result that is about to be moved counts as written. -/
def Frame.Counts (f : Frame) : Prop := ∀ dest, f.pending = some dest → f.written.lookup dest ≠ none

theorem lookup_cons_eq_none {regs : Registers} {dest : Reg}
    (h : List.lookup reg ((dest, v) :: regs) = none) :
    dest ≠ reg ∧ regs.lookup reg = none := by
  rw [List.lookup_cons] at h
  split at h
  · cases h
  · grind

/-- Only what is written before and after an instruction is missing from the registers behind it. -/
theorem Becomes.lookup_eq_none {st : BlockState} {index : Nat} {f f' : Frame} {i : Instruction}
    {new : List Op} (h : Becomes src c st index f i new f') (hcounts : f.Counts) :
    f'.Counts ∧ ∀ reg, f'.written.lookup reg = none → f.written.lookup reg = none ∧
      (i.effect index).dest? ≠ some reg := by
  cases h with
  | taken =>
    refine ⟨by simp [Frame.Counts], fun reg hreg => ⟨hreg, fun hdest => ?_⟩⟩
    obtain rfl := Option.some.inj hdest
    exact hcounts _ rfl hreg
  | nothing => exact ⟨by simp [Frame.Counts],
      fun reg hreg => ⟨hreg, by simp [Instruction.effect, Effect.dest?]⟩⟩
  | copy _ =>
    refine ⟨by simp [Frame.Counts], fun reg hreg => ?_⟩
    obtain ⟨hne, hreg⟩ := lookup_cons_eq_none hreg
    exact ⟨hreg, fun hdest => hne (Option.some.inj hdest)⟩
  | @op regs added _ op pending _ hreceives _ =>
    generalize op.dest? = value at hreceives
    cases hreceives with
    | nowhere hdest => exact ⟨by simp [Frame.Counts], fun reg hreg => ⟨hreg, by simp [hdest]⟩⟩
    | own hdest =>
      refine ⟨by simp [Frame.Counts], fun reg hreg => ?_⟩
      obtain ⟨hne, hreg⟩ := lookup_cons_eq_none hreg
      exact ⟨hreg, by simpa [hdest] using hne⟩
    | next hdest =>
      refine ⟨by simp [Frame.Counts], fun reg hreg => ?_⟩
      exact ⟨(lookup_cons_eq_none hreg).2, by simp [hdest]⟩

theorem Translates.lookup_eq_none {st : BlockState} {index : Nat} {f f' : Frame}
    {is : List Instruction} {ops : List Op}
    (h : Translates src c st index f is ops f') (hcounts : f.Counts)
    (hreg : f'.written.lookup reg = none) :
    f.written.lookup reg = none ∧ ∀ (k : Nat) (i : Instruction), is[k]? = some i →
      (i.effect (index + k)).dest? ≠ some reg := by
  induction h with
  | nil => exact ⟨hreg, by simp⟩
  | cons hbecomes _ ih =>
    obtain ⟨hcounts₁, hstep⟩ := hbecomes.lookup_eq_none hcounts
    obtain ⟨hreg₁, hrest⟩ := ih hcounts₁ hreg
    refine ⟨(hstep reg hreg₁).1, fun k i hi => ?_⟩
    cases k with
    | zero => grind
    | succ k => grind

theorem getElem?_instructionsOf_sub {index : Nat} (hstart : (src.layout.block b).start ≤ index)
    (hstop : index < (src.layout.block b).stop) :
    (instructionsOf src b)[index - (src.layout.block b).start]? =
      src.code.instructions[index]? := by
  rw [instructionsOf, List.getElem?_take, if_pos (by omega), List.getElem?_drop]
  congr 1
  omega

theorem Shape.translates {st : BlockState} {ops : List Op} (h : Shape src types st c ops)
    (hc : 0 < c) :
    ∃ ops, Translates src c st (src.layout.block c).start {} (instructionsOf src c) ops
      { written := st.written } := by
  cases h with
  | entry _ _ _ => exact absurd hc (Nat.lt_irrefl 0)
  | leaves _ htrans _ => exact ⟨_, htrans⟩
  | falls _ htrans _ _ => exact ⟨_, htrans⟩

theorem Translates.exists_becomes {st : BlockState} {index k : Nat} {f f' : Frame}
    {is : List Instruction} {ops : List Op}
    {i : Instruction} (h : Translates src c st index f is ops f') (hi : is[k]? = some i) :
    ∃ ops f₁ new f₂, Translates src c st index f (is.take k) ops f₁ ∧
      Becomes src c st (index + k) f₁ i new f₂ := by
  obtain ⟨hk, rfl⟩ := List.getElem?_eq_some_iff.1 hi
  have hlength : (is.take k).length = k := List.length_take_of_le (Nat.le_of_lt hk)
  rw [← List.take_append_drop k is, List.drop_eq_getElem_cons hk] at h
  obtain ⟨ops₁, ops₂, f₁, -, htrans, hrest⟩ := h.append
  rw [hlength] at hrest
  cases hrest with
  | cons hbecomes _ => exact ⟨ops₁, f₁, _, _, htrans, hbecomes⟩

/-- What a filled block leaves unwritten towards another, no instruction on the way there writes. -/
theorem Filled.spares (hsound : Layout.Sound src.code src.layout)
    (h : Filled src types s p) (hp : 0 < p)
    (hlt : p < src.layout.blocks.size) (hnone : (writtenTowards src s p b).lookup reg = none) :
    src.code.Spares reg (src.layout.block p).start (src.layout.exitIndex p b) := by
  have hdescribes := hsound.describes p hp hlt
  have hstop := hdescribes.stop_le
  obtain ⟨ops, htrans⟩ := h.shape.translates hp
  have hcounts : Frame.Counts {} := by simp [Frame.Counts]
  rw [writtenTowards] at hnone
  unfold Layout.exitIndex
  split
  · rename_i hexceptional
    obtain ⟨index, hthrow⟩ : ∃ index, (src.layout.block p).throwing = some index := by
      refine Option.ne_none_iff_exists'.1 fun hquiet => ?_
      simp [Layout.isExceptional, hdescribes.none hquiet] at hexceptional
    obtain ⟨hthrows, -⟩ := hdescribes.some index hthrow
    have hfirst := hthrows.start_le
    have hlast := hthrows.lt_stop
    obtain ⟨i, hi⟩ : ∃ i, src.code.instructions[index]? = some i :=
      ⟨_, List.getElem?_eq_getElem (by omega)⟩
    have hcan := hthrows.throws
    rw [getD_eq_of_getElem? hi] at hcan
    obtain ⟨ops₁, f₁, new, f₂, htrans, hbecomes⟩ :=
      htrans.exists_becomes ((getElem?_instructionsOf_sub hfirst hlast).trans hi)
    rw [Nat.add_sub_cancel' hfirst] at hbecomes
    cases hbecomes with
    | taken | nothing | copy _ => cases hcan
    | op _ _ hnote =>
      simp only [hexceptional, if_true, hnote hthrow, Option.getD_some] at hnone
      rw [hthrow, Option.getD_some]
      intro j i hj hlt hi
      have := (htrans.lookup_eq_none hcounts hnone).2 (j - (src.layout.block p).start) i ?_
      · rwa [Nat.add_sub_cancel' hj] at this
      · rw [List.getElem?_take_of_lt (by omega), getElem?_instructionsOf_sub hj (by omega), hi]
  · rename_i hnormal
    simp only [hnormal] at hnone
    intro j i hj hlt hi
    have := (htrans.lookup_eq_none hcounts hnone).2 (j - (src.layout.block p).start) i ?_
    · rwa [Nat.add_sub_cancel' hj] at this
    · rw [getElem?_instructionsOf_sub hj hlt, hi]

/-! ## Registers that every way has written -/

def Known (src : Source) (reg : Reg) (b : BlockId) : Prop :=
  0 < b ∧ ∀ written, src.code.Arrives written (src.layout.block b).start → reg ∈ written ∨
    reg < src.code.ins

theorem length_le_of_lookup_argumentRegs {dests : List Operand}
    (h : (argumentRegs dests).lookup reg = none) :
    dests.length ≤ reg := by
  by_contra hlt
  rw [Nat.not_le] at hlt
  have hmem : (reg, dests[reg]) ∈ argumentRegs dests :=
    List.mem_reverse.2
      (List.mem_map.2 ⟨(dests[reg], reg), List.mem_zipIdx_iff_getElem?.2 (by simp [hlt]), rfl⟩)
  simpa using List.lookup_eq_none_iff.1 h _ hmem

section

variable (hsound : Layout.Sound src.code src.layout) (hins : src.code.ins = types.length)
include hsound hins

/-- What a block does not write towards another is known of it already. -/
theorem Known.pred (h : Known src reg b) (hfilled : Filled src types s p)
    (hlt : p < src.layout.blocks.size)
    (hedge : b ∈ src.layout.successors p) (hnone : (writtenTowards src s p b).lookup reg = none) :
    Known src reg p := by
  rcases Nat.eq_zero_or_pos p with rfl | hp
  · exfalso
    have hshape := hfilled.shape
    generalize (s.body.block 0).ops = ops at hshape
    cases hshape with
    | @entry dests _ hlength hwritten _ =>
      have hnormal : src.layout.isExceptional 0 b = false := by
        simp [Layout.isExceptional, hsound.entry]
      rw [writtenTowards] at hnone
      simp only [hnormal, Bool.false_eq_true, if_false, hwritten] at hnone
      have hle := length_le_of_lookup_argumentRegs hnone
      rw [Layout.successors, hsound.entry, List.mem_singleton] at hedge
      refine (h.2 [] (by rw [hedge, hsound.first]; exact .start)).elim (by simp) (Nat.not_lt.2 ?_)
      rwa [hins, ← hlength]
    | leaves hne _ _ => exact hne rfl
    | falls hne _ _ _ => exact hne rfl
  · refine ⟨hp, fun written harrives => ?_⟩
    by_contra hnot
    rw [not_or] at hnot
    obtain ⟨written', harrives', hkept⟩ := exists_arrives_of_edge hsound hp hlt hedge harrives
    have hspares := hfilled.spares hsound hp hlt hnone
    exact (h.2 written' harrives').elim (hkept reg hnot.1 hspares) hnot.2

end

/-- Every phi that is still open stands for a register that is known. -/
def Wanted (src : Source) (s : State) :
    Prop := ∀ c, ∀ e ∈ (blockState s c).openPhis, Known src e.1 c

/-- A state whose lookups are answered. -/
structure Answerable (src : Source) (types : List ValueType) (s : State) :
    Prop extends Inv src s where
  done : ∀ c, (blockState s c).isFilled = true → Filled src types s c
  wanted : Wanted src s

theorem Answerable.of_seals (h : Answerable src types s) (hinv : Inv src s') (hseals : Seals s s')
    (hwanted : Wanted src s') : Answerable src types s' := by
  refine { hinv with done := fun c hc => ?_, wanted := hwanted }
  rw [hseals.isFilled c] at hc
  exact (h.done c hc).evolve hseals.toEvolves hc

theorem openPhis_cache (s : State) (b c : BlockId) (reg : Reg) (v : Operand) :
    (blockState (cache s b reg v) c).openPhis = (blockState s c).openPhis := by
  rw [blockState_cache]
  split <;> rfl

theorem preds_ne_nil (hsound : Layout.Sound src.code src.layout) (hb : 0 < b)
    (hlt : b < src.layout.blocks.size) :
    src.layout.preds b ≠ [] := by
  have hreach := hsound.reachable b hlt
  cases hreach with
  | refl _ _ => exact absurd hb (Nat.lt_irrefl 0)
  | @snoc q _ hpath hedge _ _ =>
    refine List.ne_nil_of_mem (a := q) (mem_preds.2 ⟨?_, ?_⟩)
    · rw [← Layout.size_graph]
      exact hpath.lt_size
    · rwa [← Layout.successors_graph]

section

variable (hsound : Layout.Sound src.code src.layout) (hins : src.code.ins = types.length)
include hsound hins

/-- Over an edge into a sealed block a lookup is answered if it is at the entry of the
predecessor. -/
theorem exists_run_readOver
    (hentry : ∀ {b s}, Answerable src types s → Readable src s b → Known src reg b →
      Suffices src s reg b depth →
      ∃ v s', (readAtEntry src reg depth b).run s = .ok (v, s') ∧ Answerable src types s')
    (h : Answerable src types s) (hsealed : (blockState s b).isSealed = true)
    (hknown : Known src reg b) (hp : p ∈ src.layout.preds b) (hdepth : Suffices src s reg p depth) :
    ∃ v s', (readOver src reg depth b p).run s = .ok (v, s') ∧ Answerable src types s' ∧
      Extends s s' := by
  obtain ⟨hlt, hedge⟩ := mem_preds.1 hp
  have hfilled := h.filled b hsealed p hp
  obtain ⟨v, s', hrun, hanswerable⟩ : ∃ v s', (readOver src reg depth b p).run s = .ok (v, s') ∧
      Answerable src types s' := by
    rw [run_readOver]
    cases hlookup : (writtenTowards src s p b).lookup reg with
    | some v => exact ⟨v, s, rfl, h⟩
    | none => exact hentry h (h.readable p hfilled) (hknown.pred hsound hins (h.done p hfilled) hlt
        hedge hlookup) hdepth
  exact ⟨v, s', hrun, hanswerable,
    (atExit_of_readOver (fun h hb hread => readsEntry_of_run h hb hread) hp h.toInv hsealed
      hrun).2.1.toExtends⟩

/-- A register that every way has written is found, however deep the search has to go. -/
theorem exists_run_readAtEntry (h : Answerable src types s) (hb : Readable src s b)
    (hknown : Known src reg b) (hdepth : Suffices src s reg b depth) :
    ∃ v s', (readAtEntry src reg depth b).run s = .ok (v, s') ∧ Answerable src types s' := by
  induction depth generalizing b s with
  | zero => exact absurd hdepth.pos (Nat.lt_irrefl 0)
  | succ depth ih =>
    -- the state a lookup ends in is sound as soon as it ends
    suffices hrun : ∃ v s', (readAtEntry src reg (depth + 1) b).run s = .ok (v, s') ∧
        Wanted src s' by
      obtain ⟨v, s', hrun, hwanted⟩ := hrun
      obtain ⟨hinv, hlooked, -⟩ := readsEntry_of_run h.toInv hb hrun
      exact ⟨v, s', hrun, h.of_seals hinv (Seals.of_extends hlooked.toExtends) hwanted⟩
    rw [run_readAtEntry]
    cases hlookup : (blockState s b).atEntry.lookup reg with
    | some v => exact ⟨v, s, rfl, h.wanted⟩
    | none =>
      cases hsealed : (blockState s b).isSealed with
      | false =>
        refine ⟨_, _, rfl, fun c e he => ?_⟩
        rw [openPhis_cache, blockState_hold] at he
        split at he
        · rename_i hc
          rcases List.mem_append.1 he with he | he
          · exact h.wanted c e he
          · grind
        · exact h.wanted c e he
      | true =>
        cases hpreds : src.layout.preds b with
        | nil => exact absurd hpreds (preds_ne_nil hsound hknown.1 hb.1)
        | cons p rest =>
          cases rest with
          | nil =>
            obtain ⟨v, s₁, hread, h₁, -⟩ := exists_run_readOver hsound hins ih h hsealed hknown
              (hpreds ▸ List.mem_singleton_self p) (hdepth.up hpreds)
            refine ⟨v, cache s₁ b reg v, ?_, fun c e he => ?_⟩
            · simp only [if_true, hread]
              rfl
            · rw [openPhis_cache] at he
              exact h₁.wanted c e he
          | cons q rest =>
            have hmany : 2 ≤ (src.layout.preds b).length := by simp [hpreds]
            have hext := (Extends.grow s b).trans (Extends.cache (grow s b) b reg s.body.valueCount)
            have hstart : Answerable src types (cache (grow s b) b reg s.body.valueCount) :=
              h.of_seals (h.toInv.addPhi hb.1 hmany reg) (Seals.of_extends hext) fun c e he => by
                rw [openPhis_cache] at he
                exact h.wanted c e he
            have hcached : ∀ {s₁}, Extends (cache (grow s b) b reg s.body.valueCount) s₁ →
                ¬ Uncached s₁ reg b := by
              intro s₁ hext₁ hnone
              have hmem : (reg, s.body.valueCount) ∈ (blockState s₁ b).atEntry := by
                refine hext₁.atEntry b ?_
                rw [blockState_cache, if_pos ⟨rfl, h.size ▸ hb.1⟩]
                exact List.mem_cons_self
              simpa using List.lookup_eq_none_iff.1 hnone _ hmem
            obtain ⟨operands, s₁, hread, h₁, -⟩ := exists_run_mapM (f := readOver src reg depth b)
              (fun s₁ => Answerable src types s₁ ∧
                Extends (cache (grow s b) b reg s.body.valueCount) s₁)
              (fun p' (hp' : p' ∈ p :: q :: rest) s₁ hs₁ => by
                have hp' := hpreds ▸ hp'
                obtain ⟨v, s₂, hrun, h₂, hext₂⟩ := exists_run_readOver hsound hins ih hs₁.1
                  ((hext.trans hs₁.2).isSealed b |>.trans hsealed) hknown hp'
                  (hdepth.join hsound (by omega) hlookup (hext.trans hs₁.2) (hcached hs₁.2)
                    (mem_preds.1 hp').1)
                exact ⟨v, s₂, hrun, h₂, hs₁.2.trans hext₂⟩)
              ⟨hstart, Extends.refl _⟩
            refine ⟨s.body.valueCount, close s₁ b s.body.valueCount operands, ?_, h₁.wanted⟩
            simp only [if_true, hread]
            rfl

end

end Lift

end Ssa

end BytecodeOpt
