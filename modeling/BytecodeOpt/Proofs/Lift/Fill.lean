import BytecodeOpt.Proofs.Lift.Operation

/-!
# Filling a block

Block by block the instructions become operations.  Whatever an operation reads was there when the
block was entered or is defined by an earlier operation of the block.
-/

namespace BytecodeOpt.Ssa.Lift

variable {src : Source} {b c : BlockId} {s s' : State} {new : List Op} {index : Nat}
  {regs : Registers} {i : Instruction} {v : Operand} {op : Option Op} {u : Unit} {s₁ : State}

/-! ## Values in a block -/

def InBlock (s : State) (c : BlockId) (i : Nat) (v : Operand) : Prop :=
  (∃ reg, (reg, v) ∈ (blockState s c).atEntry) ∨ v ∈ (s.body.block c).destsBefore i

theorem destsBefore_append {first : Block} (ops : List Op) {i : Nat} (h : v ∈ first.destsBefore i) :
    v ∈ ({ first with ops := first.ops ++ ops } : Block).destsBefore i := by
  obtain ⟨j, op, hj, hop, hv⟩ := Block.mem_destsBefore.1 h
  refine Block.mem_destsBefore.2 ⟨j, op, hj, ?_, hv⟩
  simp only
  rw [List.getElem?_append_left (List.getElem?_eq_some_iff.1 hop).1]
  exact hop

/-- Blocks stay linked as they are, and more becomes known of the registers at entries. -/
structure Grows (s s' : State) : Prop where
  size : s'.blocks.size = s.blocks.size
  blockCount : s'.body.blockCount = s.body.blockCount
  method : s'.body.method = s.body.method
  preds : ∀ c, (s'.body.block c).preds = (s.body.block c).preds
  handlers : ∀ c, (s'.body.block c).handlers = (s.body.block c).handlers
  atEntry : ∀ c, (blockState s c).atEntry ⊆ (blockState s' c).atEntry

theorem Grows.trans {s₁ s₂ s₃ : State} (h : Grows s₁ s₂) (h' : Grows s₂ s₃) : Grows s₁ s₃ where
  size := h'.size.trans h.size
  blockCount := h'.blockCount.trans h.blockCount
  method := h'.method.trans h.method
  preds := fun c => (h'.preds c).trans (h.preds c)
  handlers := fun c => (h'.handlers c).trans (h.handlers c)
  atEntry := fun c => List.Subset.trans (h.atEntry c) (h'.atEntry c)

theorem Extends.grows (h : Extends s s') :
    Grows s s' := { h with preds := h.preds, handlers := h.handlers }

/-- What filling a block changes: the block gets operations. -/
structure Fills (b : BlockId) (s s' : State) : Prop extends Grows s s' where
  ops : ∀ c, ∃ new, (s'.body.block c).ops = (s.body.block c).ops ++ new
  other : ∀ c, c ≠ b → (s'.body.block c).ops = (s.body.block c).ops ∧
    (blockState s' c).written = (blockState s c).written ∧
    (blockState s' c).beforeThrow = (blockState s c).beforeThrow
  isFilled : ∀ c, (blockState s' c).isFilled = (blockState s c).isFilled
  isSealed : ∀ c, (blockState s' c).isSealed = (blockState s c).isSealed

theorem Fills.trans {s₁ s₂ s₃ : State} (h : Fills b s₁ s₂) (h' : Fills b s₂ s₃) :
    Fills b s₁ s₃ where
  toGrows := h.toGrows.trans h'.toGrows
  ops := fun c => by
    obtain ⟨new, hnew⟩ := h.ops c
    obtain ⟨new', hnew'⟩ := h'.ops c
    exact ⟨new ++ new', by rw [hnew', hnew, List.append_assoc]⟩
  other := fun c hc => by
    obtain ⟨h₁, h₂, h₃⟩ := h.other c hc
    obtain ⟨h₁', h₂', h₃'⟩ := h'.other c hc
    exact ⟨h₁'.trans h₁, h₂'.trans h₂, h₃'.trans h₃⟩
  isFilled := fun c => (h'.isFilled c).trans (h.isFilled c)
  isSealed := fun c => (h'.isSealed c).trans (h.isSealed c)

theorem Fills.of_extends (b : BlockId) (h : Extends s s') : Fills b s s' where
  toGrows := h.grows
  ops := fun c => ⟨[], by rw [h.ops c, List.append_nil]⟩
  other := fun c _ => ⟨h.ops c, h.written c, h.beforeThrow c⟩
  isFilled := h.isFilled
  isSealed := h.isSealed

theorem Readable.of_fills (h : Readable src s c) (hfill : Fills b s s') : Readable src s' c :=
  ⟨h.1, h.2.imp_left fun hsealed => (hfill.isSealed c).trans hsealed⟩

theorem InBlock.grow {i : Nat} (h : InBlock s c i v)
    (hentry : (blockState s c).atEntry ⊆ (blockState s' c).atEntry)
    (hops : ∃ new, (s'.body.block c).ops = (s.body.block c).ops ++ new) : InBlock s' c i v := by
  refine h.imp (fun ⟨reg, hmem⟩ => ⟨reg, hentry hmem⟩) fun hmem => ?_
  obtain ⟨new, hnew⟩ := hops
  simpa only [Block.destsBefore, hnew] using destsBefore_append new hmem

theorem InBlock.mono {i : Nat} (h : InBlock s c i v) (hfill : Fills b s s') : InBlock s' c i v :=
  h.grow (hfill.atEntry c) (hfill.ops c)

theorem InBlock.le {i j : Nat} (h : InBlock s c i v) (hij : i ≤ j) : InBlock s c j v :=
  h.imp_right (Block.destsBefore_mono hij)

/-! ## States between instructions -/

/-- What holds between two instructions: everything a block reads or has in a register is in the
block. -/
structure Coded (src : Source) (s : State) : Prop extends Inv src s where
  preds : ∀ c < src.layout.blocks.size, (s.body.block c).preds = src.layout.preds c
  handlers : ∀ c < src.layout.blocks.size, (s.body.block c).handlers = (src.layout.block c).handlers
  written : ∀ c, ∀ e ∈ (blockState s c).written, InBlock s c (s.body.block c).ops.length e.2
  uses : ∀ c (i : Nat) (op : Op), (s.body.block c).ops[i]? = some op → ∀ v ∈ op.uses,
    InBlock s c i v
  settled : ∀ c v, Unfinished s c v → ∃ reg, (reg, v) ∈ (blockState s c).openPhis

/-- Nothing that is coded changes where operations and written registers stay. -/
theorem Coded.of_same (h : Coded src s) (hinv : Inv src s')
    (hpreds : ∀ c, (s'.body.block c).preds = (s.body.block c).preds)
    (hhandlers : ∀ c, (s'.body.block c).handlers = (s.body.block c).handlers)
    (hops : ∀ c, (s'.body.block c).ops = (s.body.block c).ops)
    (hwritten : ∀ c, (blockState s' c).written = (blockState s c).written)
    (hentry : ∀ c, (blockState s c).atEntry ⊆ (blockState s' c).atEntry)
    (hsettled : ∀ c v, Unfinished s' c v → ∃ reg, (reg, v) ∈ (blockState s' c).openPhis) :
    Coded src s' := by
  have hin : ∀ c i v, InBlock s c i v → InBlock s' c i v := fun c i v hv =>
    hv.grow (hentry c) ⟨[], by rw [hops c, List.append_nil]⟩
  refine { hinv with preds := ?_, handlers := ?_, written := ?_, uses := ?_, settled := hsettled }
  · exact fun c hc => (hpreds c).trans (h.preds c hc)
  · exact fun c hc => (hhandlers c).trans (h.handlers c hc)
  · intro c e he
    rw [hwritten c] at he
    rw [hops c]
    exact hin c _ _ (h.written c e he)
  · intro c i op hop v hv
    rw [hops c] at hop
    exact hin c i v (h.uses c i op hop v hv)

theorem Coded.of_looked (h : Coded src s) (hinv : Inv src s') (hlooked : Looked s s') :
    Coded src s' := by
  refine h.of_same hinv hlooked.preds hlooked.handlers hlooked.ops hlooked.written hlooked.atEntry
    fun c v hv => ?_
  rcases hlooked.settled c v hv with hv | hv
  · exact (h.settled c v hv).imp fun reg hmem => hlooked.openPhis c hmem
  · exact hv

theorem Coded.inBlock_of_holdsIn (h : Coded src s) {reg : Reg} (hv : HoldsIn s c reg v) :
    InBlock s c (s.body.block c).ops.length v := by
  rcases hv.mem with hmem | hmem
  · exact h.written c _ hmem
  · exact .inl ⟨reg, hmem⟩

structure Appends (b : BlockId) (new : List Op) (regs : Registers) (s s' : State) : Prop where
  size : s'.blocks.size = s.blocks.size
  blockCount : s'.body.blockCount = s.body.blockCount
  method : s'.body.method = s.body.method
  valueCount : s.body.valueCount ≤ s'.body.valueCount
  block : ∀ c, s'.body.block c =
    if b = c ∧ c < s.body.blockCount then
      { s.body.block c with ops := (s.body.block c).ops ++ new }
    else s.body.block c
  state : ∀ c, blockState s' c =
    if b = c ∧ c < s.blocks.size then
      { blockState s c with written := regs ++ (blockState s c).written }
    else blockState s c

theorem Appends.fills (h : Appends b new regs s s') : Fills b s s' where
  size := h.size
  blockCount := h.blockCount
  method := h.method
  preds := fun c => by rw [h.block]; split <;> rfl
  handlers := fun c => by rw [h.block]; split <;> rfl
  ops := fun c => by
    rw [h.block]
    split
    · exact ⟨new, rfl⟩
    · exact ⟨[], (List.append_nil _).symm⟩
  other := fun c hc => by
    rw [h.block, h.state, if_neg (fun h => hc h.1.symm), if_neg (fun h => hc h.1.symm)]
    exact ⟨rfl, rfl, rfl⟩
  isFilled := fun c => by rw [h.state]; split <;> rfl
  isSealed := fun c => by rw [h.state]; split <;> rfl
  atEntry := fun c => by rw [h.state]; split <;> exact List.Subset.refl _

theorem Appends.ops_self (h : Appends b new regs s s') (hb : b < s.body.blockCount) :
    (s'.body.block b).ops = (s.body.block b).ops ++ new := by
  rw [h.block, if_pos ⟨rfl, hb⟩]

theorem Appends.written_self (h : Appends b new regs s s') (hb : b < s.blocks.size) :
    (blockState s' b).written = regs ++ (blockState s b).written := by
  rw [h.state, if_pos ⟨rfl, hb⟩]

/-! ## Steps that are no lookups -/

structure Kept (s s' : State) : Prop where
  size : s'.blocks.size = s.blocks.size
  blockCount : s'.body.blockCount = s.body.blockCount
  phis : ∀ c, (s'.body.block c).phis = (s.body.block c).phis
  atEntry : ∀ c, (blockState s' c).atEntry = (blockState s c).atEntry
  openPhis : ∀ c, ∀ e ∈ (blockState s' c).openPhis,
    e ∈ (blockState s c).openPhis ∧ (blockState s' c).isSealed = (blockState s c).isSealed
  filled : ∀ c, (blockState s c).isFilled = true → (blockState s' c).isFilled = true ∧
    (blockState s' c).written = (blockState s c).written ∧
    (blockState s' c).beforeThrow = (blockState s c).beforeThrow

theorem AtExit.of_kept {p : BlockId} {reg : Reg} (h : AtExit src s p b reg v) (hkept : Kept s s') :
    AtExit src s' p b reg v := by
  obtain ⟨hfilled, hwritten, hthrow⟩ := hkept.filled p h.1
  refine ⟨hfilled, ?_⟩
  simp only [writtenTowards, hwritten, hthrow, hkept.atEntry p]
  exact h.2

theorem Inv.of_kept (h : Inv src s) (hkept : Kept s s')
    (hfilled : ∀ c, (blockState s' c).isSealed = true → ∀ p ∈ src.layout.preds c,
      (blockState s' p).isFilled = true)
    (hreadable : ∀ c, (blockState s' c).isFilled = true → Readable src s' c)
    (hnodup : s'.body.definedValues.Nodup)
    (hlt : ∀ v ∈ s'.body.definedValues, v < s'.body.valueCount) : Inv src s' := by
  have hdests : ∀ c, (s'.body.block c).phiDests = (s.body.block c).phiDests := by
    intro c
    simp only [Block.phiDests, hkept.phis c]
  constructor
  case size => rw [hkept.size, h.size]
  case blockCount => rw [hkept.blockCount, h.blockCount]
  case filled => exact hfilled
  case readable => exact hreadable
  case atEntry =>
    intro c e he
    rw [hkept.atEntry c] at he
    rw [hdests c]
    refine (h.atEntry c e he).imp_right ?_
    rintro ⟨p, hp, hexit⟩
    exact ⟨p, hp, hexit.of_kept hkept⟩
  case cached =>
    intro c v hv
    rw [hdests c] at hv
    rw [hkept.atEntry c]
    exact h.cached c v hv
  case operands =>
    intro c phi hphi
    rw [hkept.phis c] at hphi
    rw [hkept.atEntry c]
    refine (h.operands c phi hphi).imp_right ?_
    rintro ⟨reg, hmem, hall⟩
    exact ⟨reg, hmem, hall.imp fun _ _ hexit => hexit.of_kept hkept⟩
  case openPhis =>
    intro c e he
    obtain ⟨he, hsealed⟩ := hkept.openPhis c e he
    rw [hdests c, hkept.atEntry c, hsealed]
    exact h.openPhis c e he
  case phi_preds =>
    intro c hc
    rw [hkept.phis c] at hc
    exact h.phi_preds c hc
  case owner =>
    intro c e he e' he' heq hdest
    rw [hkept.atEntry c] at he he'
    rw [hdests c] at hdest
    exact h.owner c e he e' he' heq hdest
  case defined_nodup => exact hnodup
  case defined_lt => exact hlt

theorem Inv.of_fills (h : Inv src s) (hfill : Fills b s s')
    (hunfilled : (blockState s b).isFilled = false)
    (hphis : ∀ c, (s'.body.block c).phis = (s.body.block c).phis)
    (hstate : ∀ c, (blockState s' c).atEntry = (blockState s c).atEntry ∧
      (blockState s' c).openPhis = (blockState s c).openPhis) (hnodup : s'.body.definedValues.Nodup)
    (hlt : ∀ v ∈ s'.body.definedValues, v < s'.body.valueCount) : Inv src s' := by
  have hkept : Kept s s' := { hfill with
    phis := hphis
    atEntry := fun c => (hstate c).1
    openPhis := fun c e he => ⟨(hstate c).2 ▸ he, hfill.isSealed c⟩
    filled := fun c hc => by
      have hne : c ≠ b := by grind
      exact ⟨(hfill.isFilled c).trans hc, (hfill.other c hne).2⟩ }
  refine h.of_kept hkept ?_ ?_ hnodup hlt
  · intro c hc p hp
    rw [hfill.isSealed c] at hc
    rw [hfill.isFilled p]
    exact h.filled c hc p hp
  · intro c hc
    rw [hfill.isFilled c] at hc
    exact (h.readable c hc).of_fills hfill

def Fresh (s s' : State) (new : List Op) : Prop :=
  new.filterMap Op.dest? = [] ∨ ∃ v, new.filterMap Op.dest? = [v] ∧ s.body.valueCount ≤ v ∧
    v < s'.body.valueCount

theorem Appends.definedValues (h : Appends b new regs s s') (hb : b < s.body.blockCount) :
    s'.body.definedValues.Perm (new.filterMap Op.dest? ++ s.body.definedValues) := by
  have hsame : s'.body.definedValues = (s.body.modifyBlock b fun block =>
      { block with ops := block.ops ++ new }).definedValues := by
    refine Body.definedValues_congr (by simpa using h.blockCount) fun c _ => ?_
    rw [h.block, Body.block_modifyBlock]
  rw [hsame]
  refine Body.definedValues_modifyBlock_perm hb ?_
  simp only [Block.definedValues, Block.phiDests, Block.opDests, List.filterMap_append]
  rw [← List.append_assoc]
  exact List.perm_append_comm

theorem Coded.append (h : Coded src s) (happ : Appends b new regs s s')
    (hb : b < src.layout.blocks.size)
    (hunfilled : (blockState s b).isFilled = false) (hfresh : Fresh s s' new)
    (hlength : new.length ≤ 1)
    (huses : ∀ op ∈ new, ∀ v ∈ op.uses, InBlock s b (s.body.block b).ops.length v)
    (hregs : ∀ e ∈ regs, InBlock s b (s.body.block b).ops.length e.2 ∨
      e.2 ∈ new.filterMap Op.dest?) :
    Coded src s' := by
  have hfill := happ.fills
  have hbcount : b < s.body.blockCount := h.blockCount ▸ hb
  have hops := happ.ops_self hbcount
  have hphis : ∀ c, (s'.body.block c).phis = (s.body.block c).phis := fun c => by
    rw [happ.block]; split <;> rfl
  have hstate : ∀ c, (blockState s' c).atEntry = (blockState s c).atEntry ∧
      (blockState s' c).openPhis = (blockState s c).openPhis := fun c => by
        rw [happ.state]; split <;> exact ⟨rfl, rfl⟩
  have hperm := happ.definedValues hbcount
  have hinv : Inv src s' := by
    refine h.toInv.of_fills hfill hunfilled hphis hstate ?_ ?_
    · rw [hperm.nodup_iff]
      rcases hfresh with hnil | ⟨v, hone, hle, -⟩
      · rw [hnil]
        exact h.defined_nodup
      · rw [hone]
        refine List.nodup_cons.2 ⟨fun hc => ?_, h.defined_nodup⟩
        exact Nat.not_le_of_lt (h.defined_lt v hc) hle
    · intro v hv
      rcases List.mem_append.1 (hperm.subset hv) with hv | hv
      · rcases hfresh with hnil | ⟨w, hone, -, hlt⟩
        · simp [hnil] at hv
        · grind
      · exact Nat.lt_of_lt_of_le (h.defined_lt v hv) happ.valueCount
  refine { hinv with preds := ?_, handlers := ?_, written := ?_, uses := ?_, settled := ?_ }
  · exact fun c hc => (hfill.preds c).trans (h.preds c hc)
  · exact fun c hc => (hfill.handlers c).trans (h.handlers c hc)
  · intro c e he
    by_cases hc : c = b
    · subst hc
      rw [happ.written_self (h.size ▸ hb)] at he
      have hold : InBlock s c (s.body.block c).ops.length e.2 →
          InBlock s' c (s'.body.block c).ops.length e.2 := fun hin =>
        (hin.mono hfill).le (by rw [hops, List.length_append]; omega)
      rcases List.mem_append.1 he with he | he
      · rcases hregs e he with hin | hdest
        · exact hold hin
        · right
          rw [Block.destsBefore_length, Block.opDests, hops, List.filterMap_append]
          exact List.mem_append_right _ hdest
      · exact hold (h.written c e he)
    · rw [(hfill.other c hc).2.1] at he
      rw [(hfill.other c hc).1]
      exact (h.written c e he).mono hfill
  · intro c i op hop v hv
    by_cases hc : c = b
    · subst hc
      rw [hops] at hop
      by_cases hi : i < (s.body.block c).ops.length
      · rw [List.getElem?_append_left hi] at hop
        exact (h.uses c i op hop v hv).mono hfill
      · have hlt := (List.getElem?_eq_some_iff.1 hop).1
        rw [List.length_append] at hlt
        obtain rfl : i = (s.body.block c).ops.length := by omega
        rw [List.getElem?_append_right (Nat.le_refl _), Nat.sub_self] at hop
        exact (huses op (List.mem_of_getElem? hop) v hv).mono hfill
    · rw [(hfill.other c hc).1] at hop
      exact (h.uses c i op hop v hv).mono hfill
  · intro c v hv
    obtain ⟨phi, hphi, hdest, hoperands⟩ := hv
    rw [hphis c] at hphi
    rw [(hstate c).2]
    exact h.settled c v ⟨phi, hphi, hdest, hoperands⟩

/-! ## Instructions -/

def noted (src : Source) (s : State) (b : BlockId) (index : Nat) : State :=
  if (src.layout.block b).throwing = some index then
    { s with blocks := s.blocks.modify b fun st => { st with beforeThrow := some st.written } }
  else s

theorem run_noteThrow (index : Nat) :
    (noteThrow src b index).run s = .ok ((), noted src s b index) := by
  unfold noteThrow noted
  split <;> rfl

def emitted (s : State) (b : BlockId) : Option Op → State
  | none => s
  | some op =>
    { s with body := s.body.modifyBlock b fun block => { block with ops := block.ops ++ [op] } }

theorem run_emit_eq_ok {op : Op} :
    (emit b op).run s = .ok (u, s') ↔ s' = emitted s b (some op) := by
  change Except.ok ((), emitted s b (some op)) = .ok (u, s') ↔ _
  simp only [Except.ok.injEq, Prod.mk.injEq]
  tauto

theorem run_fillFrom_cons_eq_ok {rest : List Instruction} :
    (fillFrom src b (i :: rest) index false).run s = .ok (u, s') ↔
      ∃ op s₁, (operation src b index rest.head? i).run (noted src s b index) = .ok (op, s₁) ∧
        (fillFrom src b rest (index + 1) (takesResult i rest.head?)).run (emitted s₁ b op) =
          .ok (u, s') := by
  rw [fillFrom, run_bind_eq_ok]
  simp only [run_noteThrow, Except.ok.injEq, Prod.mk.injEq]
  constructor
  · rintro ⟨_, _, ⟨-, rfl⟩, h⟩
    rw [run_bind_eq_ok] at h
    obtain ⟨op, s₁, hop, h⟩ := h
    refine ⟨op, s₁, hop, ?_⟩
    cases op <;> exact h
  · rintro ⟨op, s₁, hop, h⟩
    refine ⟨(), _, ⟨trivial, rfl⟩, ?_⟩
    rw [run_bind_eq_ok]
    refine ⟨op, s₁, hop, ?_⟩
    cases op <;> exact h

theorem blockState_noted (index : Nat) (c : BlockId) :
    blockState (noted src s b index) c =
      if b = c ∧ c < s.blocks.size ∧ (src.layout.block b).throwing = some index then
        { blockState s c with beforeThrow := some (blockState s c).written }
      else blockState s c := by
  unfold noted
  by_cases hthrow : (src.layout.block b).throwing = some index
  · simp only [hthrow, and_true]
    exact blockState_modify b c _ s.body
  · simp only [hthrow, and_false, if_false]

theorem written_noted (index : Nat) :
    (blockState (noted src s b index) c).written = (blockState s c).written := by
  rw [blockState_noted]
  split <;> rfl

@[simp] theorem body_noted (index : Nat) : (noted src s b index).body = s.body := by
  unfold noted
  split <;> rfl

@[simp] theorem size_noted (index : Nat) : (noted src s b index).blocks.size = s.blocks.size := by
  unfold noted
  split <;> simp

theorem fills_noted (src : Source) (s : State) (b : BlockId) (index : Nat) :
    Fills b s (noted src s b index) where
  size := by simp
  blockCount := by simp
  method := by simp
  preds := fun c => by simp
  handlers := fun c => by simp
  ops := fun c => ⟨[], by simp⟩
  other := fun c hc => by
    rw [blockState_noted, if_neg (fun h => hc h.1.symm)]
    simp
  isFilled := fun c => by rw [blockState_noted]; split <;> rfl
  isSealed := fun c => by rw [blockState_noted]; split <;> rfl
  atEntry := fun c => by rw [blockState_noted]; split <;> exact List.Subset.refl _

theorem Coded.noted (h : Coded src s) (hunfilled : (blockState s b).isFilled = false)
    (index : Nat) : Coded src (noted src s b index) := by
  have hfill := fills_noted src s b index
  have hstate : ∀ c, (blockState (Lift.noted src s b index) c).atEntry = (blockState s c).atEntry ∧
      (blockState (Lift.noted src s b index) c).openPhis = (blockState s c).openPhis := by
    intro c
    rw [blockState_noted]
    split <;> exact ⟨rfl, rfl⟩
  have hinv := h.toInv.of_fills hfill hunfilled (fun c => by simp) hstate
    (by simpa using h.defined_nodup) (by simpa using h.defined_lt)
  refine h.of_same hinv hfill.preds hfill.handlers (fun c => by simp)
    (fun _ => written_noted index) hfill.atEntry
    fun c v hv => ?_
  rw [(hstate c).2]
  exact h.settled c v (by simpa [Unfinished] using hv)

/-- What a block has in registers between two instructions.  A result that the next instruction
moves to its register counts as moved already. -/
structure Frame where
  written : Registers := []
  pending : Option Reg := none

inductive Becomes (src : Source) (c : BlockId) (st : BlockState) (index : Nat) :
    Frame → Instruction → List Op → Frame → Prop where
  | taken {regs : Registers} {dest : Reg} :
      Becomes src c st index ⟨regs, some dest⟩ (.moveResult dest) [] ⟨regs, none⟩
  | nothing {regs : Registers} : Becomes src c st index ⟨regs, none⟩ .nop [] ⟨regs, none⟩
  | copy {regs : Registers} {dest source : Reg} {v : Operand} : Holds regs st.atEntry source v →
      Becomes src c st index ⟨regs, none⟩ (.move dest source) [] ⟨(dest, v) :: regs, none⟩
  | op {regs new : Registers} {i : Instruction} {op : Op} {pending : Option Reg} :
      Renders src (Holds regs st.atEntry) index i op →
      Receives (i.effect index) op.dest? new pending →
      ((src.layout.block c).throwing = some index → st.beforeThrow = some regs) →
      Becomes src c st index ⟨regs, none⟩ i [op] ⟨new ++ regs, pending⟩

inductive Translates (src : Source) (c : BlockId) (st : BlockState) :
    Nat → Frame → List Instruction → List Op → Frame → Prop where
  | nil {index : Nat} {f : Frame} : Translates src c st index f [] [] f
  | cons {index : Nat} {f f₁ f₂ : Frame} {i : Instruction} {rest : List Instruction}
      {new ops : List Op} : Becomes src c st index f i new f₁ →
      Translates src c st (index + 1) f₁ rest ops f₂ →
      Translates src c st index f (i :: rest) (new ++ ops) f₂

variable {f f' : Frame}

theorem Becomes.mono {st st' : BlockState} (h : Becomes src c st index f i new f')
    (hentry : st.atEntry ⊆ st'.atEntry)
    (hthrow : (src.layout.block c).throwing = some index → st'.beforeThrow = st.beforeThrow) :
    Becomes src c st' index f i new f' := by
  cases h with
  | taken => exact .taken
  | nothing => exact .nothing
  | copy hv => exact .copy (hv.mono hentry)
  | op hrender hreceives hnote =>
    exact .op (hrender.mono fun _ _ hv => hv.mono hentry) hreceives fun hindex =>
      (hthrow hindex).trans (hnote hindex)

theorem Translates.mono {st st' : BlockState} {is : List Instruction} {ops : List Op}
    (h : Translates src c st index f is ops f') (hentry : st.atEntry ⊆ st'.atEntry)
    (hthrow : st'.beforeThrow = st.beforeThrow) : Translates src c st' index f is ops f' := by
  induction h with
  | nil => exact .nil
  | cons hbecomes _ ih => exact .cons (hbecomes.mono hentry fun _ => hthrow) ih

def Thrown (s : State) (c : BlockId) : Prop :=
  ∀ regs, (blockState s c).beforeThrow = some regs → ∃ k op, (s.body.block c).ops[k]? = some op ∧
    op.canThrow = true ∧ ∀ e ∈ regs, InBlock s c k e.2

theorem Thrown.grow (h : Thrown s c)
    (hops : ∃ new, (s'.body.block c).ops = (s.body.block c).ops ++ new)
    (hbefore : (blockState s' c).beforeThrow = (blockState s c).beforeThrow)
    (hentry : (blockState s c).atEntry ⊆ (blockState s' c).atEntry) : Thrown s' c := by
  intro regs hregs
  rw [hbefore] at hregs
  obtain ⟨k, op, hop, hthrow, hall⟩ := h regs hregs
  refine ⟨k, op, ?_, hthrow, fun e he => (hall e he).grow hentry hops⟩
  obtain ⟨new, hnew⟩ := hops
  rw [hnew, List.getElem?_append_left (List.getElem?_eq_some_iff.1 hop).1]
  exact hop

/-- An exception is caught first of all, in a block that is entered by exceptions only. -/
def Catches (src : Source) (s : State) (c : BlockId) : Prop :=
  ∀ (k : Nat) (op : Op), (s.body.block c).ops[k]? = some op → op.isMoveException = true →
    k = 0 ∧ src.layout.preds c ≠ [] ∧ ∀ p ∈ src.layout.preds c, src.layout.isExceptional p c = true

theorem appends_emitted (s : State) (b : BlockId) (op : Op) :
    Appends b [op] [] s (emitted s b (some op)) := by
  refine ⟨rfl, by simp [emitted], rfl, Nat.le_refl _, fun c => ?_, fun c => ?_⟩
  · exact Body.block_modifyBlock s.body b c _
  · simp [emitted, blockState]

theorem appends_of_yields {next : Option Instruction} (hcoded : Coded src s₁)
    (hb : b < src.layout.blocks.size)
    (hunfilled : (blockState s₁ b).isFilled = false) (h : Yields src b index next i s₁ op s') :
    Coded src (emitted s' b op) ∧ ∃ regs, Appends b op.toList regs s₁ (emitted s' b op) ∧
      ∀ st : BlockState, (blockState s₁ b).atEntry ⊆ st.atEntry →
        ((src.layout.block b).throwing = some index →
          st.beforeThrow = some (blockState s₁ b).written) →
        Becomes src b st index ⟨(blockState s₁ b).written, none⟩ i op.toList
          ⟨regs ++ (blockState s₁ b).written, pickedUp i next⟩ := by
  have huses {op : Op} (hrender : Renders src (HoldsIn s₁ b) index i op) :
      ∀ o ∈ [op], ∀ v ∈ o.uses, InBlock s₁ b (s₁.body.block b).ops.length v := by
    intro o ho v hv
    obtain rfl := List.mem_singleton.1 ho
    obtain ⟨reg, hreg⟩ := hrender.exists_holds hv
    exact hcoded.inBlock_of_holdsIn hreg
  cases h with
  | nothing hi =>
    subst hi
    have happ : Appends b [] [] s' (emitted s' b none) := by
      refine ⟨rfl, rfl, rfl, Nat.le_refl _, fun c => ?_, fun c => ?_⟩
      · simp [emitted]
      · simp [emitted]
    refine ⟨hcoded, _, happ, fun st _ _ => ?_⟩
    rw [pickedUp_of_not_pending rfl]
    exact .nothing
  | @copy reg source v hi hv =>
    subst hi
    have happ : Appends b [] [(reg, v)] s₁ (emitted (put s₁ b reg v) b none) := by
      refine ⟨by simp [emitted, put], rfl, rfl, Nat.le_refl _, fun c => ?_, fun c => ?_⟩
      · simp [emitted, put]
      · exact blockState_modify b c _ s₁.body
    refine ⟨hcoded.append happ hb hunfilled (.inl rfl) (by simp) (by simp) ?_, _, happ,
      fun st hentry _ => ?_⟩
    · intro e he
      obtain rfl := List.mem_singleton.1 he
      exact .inl (hcoded.inBlock_of_holdsIn hv)
    · rw [pickedUp_of_not_pending rfl]
      exact .copy (Holds.mono hv hentry)
  | @effect op hrender hreceives =>
    have happ := appends_emitted s' b op
    have hdest := hreceives.dest_eq_none
    refine ⟨hcoded.append happ hb hunfilled (.inl (by simp [hdest])) (by simp) (huses hrender)
      (by simp), _, happ,
      fun st hentry hnote => ?_⟩
    exact .op (hrender.mono fun _ _ hv => Holds.mono hv hentry) hreceives hnote
  | @result op reg type hrender hdest hreceives =>
    have happ : Appends b [op] [(reg, s₁.body.valueCount)] s₁
        (emitted (put (withValue s₁ type) b reg s₁.body.valueCount) b (some op)) := by
      refine ⟨by simp [emitted, put, withValue], by simp [emitted, put, withValue], rfl, ?_,
        fun c => ?_, fun c => ?_⟩
      · simp [emitted, put, withValue]
      · exact Body.block_modifyBlock (s₁.body.addValue type) b c _
      · exact blockState_modify b c _ _
    refine ⟨hcoded.append happ hb hunfilled (.inr ⟨_, by simp [hdest], Nat.le_refl _, ?_⟩)
      (by simp) (huses hrender) (by simp [hdest]), _, happ, fun st hentry hnote => ?_⟩
    · simp [emitted, put, withValue]
    · exact .op (hrender.mono fun _ _ hv => Holds.mono hv hentry) hreceives hnote

structure Filling (src : Source) (b : BlockId) (s : State) : Prop extends Coded src s where
  readable_self : Readable src s b
  unfilled : (blockState s b).isFilled = false
  thrown : Thrown s b
  catches : Catches src s b

theorem Filling.lt_size (h : Filling src b s) : b < s.blocks.size := h.size ▸ h.readable_self.1

theorem Filling.lt_blockCount (h : Filling src b s) :
    b < s.body.blockCount := h.blockCount ▸ h.readable_self.1

theorem thrown_of_noted (h : Filling src b s) (hlooked : Looked (noted src s b index) s₁)
    (happ : Appends b op.toList regs s₁ s')
    (hnote : (src.layout.block b).throwing = some index → ∃ o, op = some o ∧ o.canThrow = true) :
    Thrown s' b ∧ (blockState s' b).beforeThrow =
      if (src.layout.block b).throwing = some index then some (blockState s b).written
      else (blockState s b).beforeThrow := by
  have hfill : Fills b s s' :=
    ((fills_noted src s b index).trans (Fills.of_extends b hlooked.toExtends)).trans happ.fills
  have hbefore : (blockState s' b).beforeThrow =
      (blockState (noted src s b index) b).beforeThrow := by
    rw [happ.state]
    split <;> exact hlooked.beforeThrow b
  have hops : (s'.body.block b).ops = (s.body.block b).ops ++ op.toList := by
    rw [happ.ops_self (by rw [hlooked.blockCount, body_noted]; exact h.lt_blockCount),
      hlooked.ops b, body_noted]
  by_cases hthrow : (src.layout.block b).throwing = some index
  · rw [blockState_noted, if_pos ⟨rfl, h.lt_size, hthrow⟩] at hbefore
    rw [if_pos hthrow]
    refine ⟨?_, hbefore⟩
    intro regs' hregs'
    rw [hbefore, Option.some.injEq] at hregs'
    subst hregs'
    obtain ⟨o, rfl, ho⟩ := hnote hthrow
    refine ⟨(s.body.block b).ops.length, o, ?_, ho, ?_⟩
    · grind
    · exact fun e he => (h.written b e he).mono hfill
  · rw [blockState_noted, if_neg (fun hc => hthrow hc.2.2)] at hbefore
    rw [if_neg hthrow]
    exact ⟨h.thrown.grow (hfill.ops b) hbefore (hfill.atEntry b), hbefore⟩

theorem Becomes.canThrow {st : BlockState} (h : Becomes src c st index f i new f')
    (hi : i.canThrow = true) :
    ∃ op, new = [op] ∧ op.canThrow = true := by
  cases h with
  | op hrender _ _ => exact ⟨_, rfl, hrender.canThrow_eq.trans hi⟩
  | taken | nothing | copy _ => cases hi

theorem Becomes.exception {st : BlockState} (h : Becomes src c st index f i new f') {op : Op}
    (hop : op ∈ new)
    (hcaught : op.isMoveException = true) : new = [op] ∧ ∃ dest, i = .moveException dest := by
  cases h with
  | op hrender _ _ =>
    obtain rfl := List.mem_singleton.1 hop
    exact ⟨rfl, hrender.exception hcaught⟩
  | taken | nothing | copy _ => cases hop

theorem filling_of_instruction {next : Option Instruction} (h : Filling src b s)
    (hnote : (src.layout.block b).throwing = some index → i.canThrow = true)
    (hrun : (operation src b index next i).run (noted src s b index) = .ok (op, s₁)) :
    Filling src b (emitted s₁ b op) ∧ Fills b s (emitted s₁ b op) ∧
      ((emitted s₁ b op).body.block b).ops = (s.body.block b).ops ++ op.toList ∧
      Becomes src b (blockState (emitted s₁ b op) b) index ⟨(blockState s b).written,
        none⟩ i op.toList
        ⟨(blockState (emitted s₁ b op) b).written, pickedUp i next⟩ ∧
      ((src.layout.block b).throwing ≠ some index →
        (blockState (emitted s₁ b op) b).beforeThrow = (blockState s b).beforeThrow) := by
  have hnoted := h.toCoded.noted h.unfilled index
  have hnotedFill := fills_noted src s b index
  obtain ⟨s₂, regs, values, hreads, hyields⟩ :=
    yields_of_operation hnoted.toInv (h.readable_self.of_fills hnotedFill) hrun
  have hcoded₂ := hnoted.of_looked hreads.inv hreads.looked
  have hfill₂ := hnotedFill.trans (Fills.of_extends b hreads.looked.toExtends)
  have hunfilled₂ : (blockState s₂ b).isFilled = false := (hfill₂.isFilled b).trans h.unfilled
  obtain ⟨hcoded, new, happ, hbecomes⟩ :=
    appends_of_yields hcoded₂ h.readable_self.1 hunfilled₂ hyields
  have hfill := hfill₂.trans happ.fills
  have hops : ((emitted s₁ b op).body.block b).ops = (s.body.block b).ops ++ op.toList := by
    rw [happ.ops_self (hfill₂.blockCount ▸ h.lt_blockCount), hreads.looked.ops b, body_noted]
  have hwritten₂ : (blockState s₂ b).written = (blockState s b).written :=
    (hreads.looked.written b).trans (written_noted index)
  have hwritten : (blockState (emitted s₁ b op) b).written = new ++ (blockState s b).written := by
    rw [happ.written_self (hfill₂.size ▸ h.lt_size), hwritten₂]
  rw [hwritten₂] at hbecomes
  have hnote' : (src.layout.block b).throwing = some index → ∃ o, op = some o ∧
      o.canThrow = true := by
    intro hthrow
    obtain ⟨o, ho, hcan⟩ :=
      (hbecomes { blockState s₂ b with beforeThrow := some (blockState s b).written }
        (List.Subset.refl _) fun _ => rfl).canThrow (hnote hthrow)
    exact ⟨o, by simpa using ho, hcan⟩
  obtain ⟨hthrown, hbefore⟩ := thrown_of_noted h hreads.looked happ hnote'
  have hbecomes := hbecomes (blockState (emitted s₁ b op) b) (happ.fills.atEntry b)
    fun hthrow => by rw [hbefore, if_pos hthrow]
  refine ⟨{ hcoded with readable_self := ?_, unfilled := ?_, thrown := hthrown, catches := ?_ },
    hfill, hops, hwritten ▸ hbecomes, fun hthrow => by rw [hbefore, if_neg hthrow]⟩
  · exact h.readable_self.of_fills hfill
  · exact (hfill.isFilled b).trans h.unfilled
  · intro k o hk ho
    rw [hops] at hk
    by_cases hlt : k < (s.body.block b).ops.length
    · rw [List.getElem?_append_left hlt] at hk
      exact h.catches k o hk ho
    · -- the operation is the new one, so the block was empty
      have hklt := (List.getElem?_eq_some_iff.1 hk).1
      rw [List.getElem?_append_right (Nat.le_of_not_lt hlt)] at hk
      obtain ⟨hnew, dest, rfl⟩ := hbecomes.exception (List.mem_of_getElem? hk) ho
      have hentry := (run_moveException_eq_ok.1 hrun).1
      simp only [isHandlerEntry, body_noted, Bool.and_eq_true, List.isEmpty_iff, Bool.not_eq_true',
        List.all_eq_true] at hentry
      obtain ⟨⟨hempty, hpreds⟩, hall⟩ := hentry
      rw [List.length_append, hempty, hnew] at hklt
      refine ⟨by simpa using hklt, ?_, hall⟩
      rintro hnil
      simp [hnil] at hpreds

/-- A stretch of instructions, the first of which may pick up the result of the one before.  `hnote`
says that the instruction before which the registers are kept throws. -/
theorem filling_of_fillFrom {instructions : List Instruction} {pending : Option Reg}
    (h : Filling src b s)
    (hpending : ∀ dest, pending = some dest → instructions.head? = some (.moveResult dest))
    (hnote : ∀ k i, instructions[k]? = some i → (src.layout.block b).throwing = some (index + k) →
      i.canThrow = true)
    (hrun : (fillFrom src b instructions index pending.isSome).run s = .ok (u, s')) :
    Filling src b s' ∧ Fills b s s' ∧
      (∃ new, (s'.body.block b).ops = (s.body.block b).ops ++ new ∧
        Translates src b (blockState s' b) index ⟨(blockState s b).written, pending⟩
          instructions new
          ⟨(blockState s' b).written, none⟩) ∧
      ((∀ k < instructions.length, (src.layout.block b).throwing ≠ some (index + k)) →
        (blockState s' b).beforeThrow = (blockState s b).beforeThrow) := by
  induction instructions generalizing index pending s with
  | nil =>
    obtain rfl : pending = none := by
      cases pending with
      | none => rfl
      | some dest => cases hpending dest rfl
    rw [fillFrom, run_pure_eq_ok] at hrun
    obtain ⟨-, rfl⟩ := hrun
    exact ⟨h, Fills.of_extends b (Extends.refl s'), ⟨[], by simp, .nil⟩, fun _ => rfl⟩
  | cons i rest ih =>
    have hshift : ∀ k, index + (k + 1) = index + 1 + k := fun k => by omega
    have hnoteRest : ∀ k j, rest[k]? = some j →
        (src.layout.block b).throwing = some (index + 1 + k) → j.canThrow = true :=
      fun k j hj hthrow => hnote (k + 1) j (by simpa using hj) (by rw [hthrow, ← hshift])
    have hlater : (∀ k < (i :: rest).length, (src.layout.block b).throwing ≠ some (index + k)) →
        (src.layout.block b).throwing ≠ some index ∧
          ∀ k < rest.length, (src.layout.block b).throwing ≠ some (index + 1 + k) := by
      refine fun hnot => ⟨hnot 0 (by simp), fun k hk => ?_⟩
      rw [← hshift]
      exact hnot (k + 1) (by simpa using hk)
    cases pending with
    | some dest =>
      obtain rfl : i = .moveResult dest := by simpa using hpending dest rfl
      rw [Option.isSome_some, fillFrom] at hrun
      have hnone : ∀ d, (none : Option Reg) = some d → rest.head? = some (.moveResult d) := by
        simp
      obtain ⟨hfilling, hfill, ⟨new, hops, htrans⟩, hkept⟩ := ih h hnone hnoteRest hrun
      exact ⟨hfilling, hfill, ⟨new, hops, .cons .taken htrans⟩, fun hnot => hkept (hlater hnot).2⟩
    | none =>
      obtain ⟨op, s₁, hop, hrun⟩ := run_fillFrom_cons_eq_ok.1 hrun
      rw [takesResult_eq] at hrun
      obtain ⟨hfilling₁, hfill₁, hops₁, hbecomes, hkept₁⟩ :=
        filling_of_instruction h (fun hthrow => hnote 0 i rfl hthrow) hop
      obtain ⟨hfilling, hfill, ⟨new, hops, htrans⟩, hkept⟩ :=
        ih hfilling₁ (fun _ => pickedUp_eq_some) hnoteRest hrun
      refine ⟨hfilling, hfill₁.trans hfill, ⟨op.toList ++ new, ?_, .cons ?_ htrans⟩, ?_⟩
      · rw [hops, hops₁, List.append_assoc]
      · refine hbecomes.mono (hfill.atEntry b) fun hthrow => hkept fun k _ hk => ?_
        -- the instruction that throws is not among the later ones
        rw [hthrow, Option.some.injEq] at hk
        omega
      · exact fun hnot => (hkept (hlater hnot).2).trans (hkept₁ (hlater hnot).1)

/-! ## Operations without an instruction -/

theorem Filling.append (h : Filling src b s) (happ : Appends b new regs s s')
    (hcoded : Coded src s')
    (hcaught : ∀ op ∈ new, op.isMoveException = false) : Filling src b s' := by
  have hfill := happ.fills
  have hops := happ.ops_self h.lt_blockCount
  have hbefore : (blockState s' b).beforeThrow = (blockState s b).beforeThrow := by
    rw [happ.state]
    split <;> rfl
  refine { hcoded with readable_self := ?_, unfilled := ?_, thrown := ?_, catches := ?_ }
  · exact h.readable_self.of_fills hfill
  · exact (hfill.isFilled b).trans h.unfilled
  · exact h.thrown.grow (hfill.ops b) hbefore (hfill.atEntry b)
  · intro k o hk ho
    rw [hops] at hk
    by_cases hlt : k < (s.body.block b).ops.length
    · rw [List.getElem?_append_left hlt] at hk
      exact h.catches k o hk ho
    · grind

theorem filling_of_goto (h : Filling src b s) (target : BlockId) :
    Filling src b (emitted s b (some (.goto target))) ∧
      Appends b [.goto target] [] s (emitted s b (some (.goto target))) := by
  have happ := appends_emitted s b (.goto target)
  refine ⟨h.append happ ?_ (by simp [Op.isMoveException]), happ⟩
  exact h.toCoded.append happ h.readable_self.1 h.unfilled (.inl rfl) (by simp) (by simp [Op.uses])
    (by simp)

def withArgument (s : State) (type : ValueType) (index : Nat) : State :=
  put (emitted (withValue s type) 0 (some (.argument s.body.valueCount index))) 0 index
    s.body.valueCount

theorem filling_of_argument (h : Filling src 0 s) (type : ValueType) (index : Nat) :
    Filling src 0 (withArgument s type index) ∧
      Appends 0 [.argument s.body.valueCount index] [(index, s.body.valueCount)] s
        (withArgument s type index) := by
  have happ : Appends 0 [.argument s.body.valueCount index] [(index, s.body.valueCount)] s
      (withArgument s type index) := by
    refine ⟨by simp [withArgument, emitted, put, withValue],
      by simp [withArgument, emitted, put, withValue], rfl,
      by simp [withArgument, emitted, put, withValue], fun c => ?_, fun c => ?_⟩
    · exact Body.block_modifyBlock (s.body.addValue type) 0 c _
    · exact blockState_modify 0 c _ _
  refine ⟨h.append happ ?_ (by simp [Op.isMoveException]), happ⟩
  refine h.toCoded.append happ h.readable_self.1 h.unfilled (.inr ⟨_, rfl, Nat.le_refl _, ?_⟩)
    (by simp) (by simp [Op.uses]) (by simp [Op.dest?])
  simp [withArgument, emitted, put, withValue]

def argumentOps (dests : List Operand) : List Op :=
  dests.zipIdx.map fun e => .argument e.1 e.2

theorem argumentOps_concat (dests : List Operand) (d : Operand) :
    argumentOps (dests ++ [d]) = argumentOps dests ++ [.argument d dests.length] := by
  simp [argumentOps, List.zipIdx_append]

def argumentRegs (dests : List Operand) : Registers :=
  (dests.zipIdx.map Prod.swap).reverse

theorem argumentRegs_concat (dests : List Operand) (d : Operand) :
    argumentRegs (dests ++ [d]) = (dests.length, d) :: argumentRegs dests := by
  simp [argumentRegs, List.zipIdx_append]

theorem filling_of_arguments {types : List ValueType} {u : PUnit} (h : Filling src 0 s)
    (dests : List Operand) (hops : (s.body.block 0).ops = argumentOps dests)
    (hwritten : (blockState s 0).written = argumentRegs dests)
    (hrun : (forIn (types.zipIdx dests.length) PUnit.unit fun (e : ValueType × Nat)
      (_ : PUnit) => do
      let dest ← newValue e.1
      emit 0 (.argument dest e.2)
      write src 0 e.2 dest
      pure (ForInStep.yield PUnit.unit)).run s = .ok (u, s')) :
    Filling src 0 s' ∧ Fills 0 s s' ∧ ∃ all, (s'.body.block 0).ops = argumentOps all ∧
      (blockState s' 0).written = argumentRegs all ∧ all.length = dests.length + types.length := by
  induction types generalizing s dests with
  | nil =>
    rw [List.zipIdx_nil, List.forIn_nil, run_pure_eq_ok] at hrun
    obtain ⟨-, rfl⟩ := hrun
    exact ⟨h, Fills.of_extends 0 (Extends.refl s'), dests, hops, hwritten, by simp⟩
  | cons type types ih =>
    rw [List.zipIdx_cons, List.forIn_cons, run_bind_eq_ok] at hrun
    obtain ⟨r, s₁, hstep, hrun⟩ := hrun
    simp only [run_bind_eq_ok, run_newValue, emit, run_modifyBody, run_write_eq_ok,
      run_pure_eq_ok, Except.ok.injEq, Prod.mk.injEq] at hstep
    obtain ⟨_, _, ⟨rfl, rfl⟩, _, _, ⟨-, rfl⟩, _, _, ⟨-, rfl⟩, rfl, rfl⟩ := hstep
    obtain ⟨hfilling, happ⟩ := filling_of_argument h type dests.length
    have hops' : ((withArgument s type dests.length).body.block 0).ops =
        argumentOps (dests ++ [s.body.valueCount]) := by
      rw [happ.ops_self h.lt_blockCount, argumentOps_concat, hops]
    have hwritten' : (blockState (withArgument s type dests.length) 0).written =
        argumentRegs (dests ++ [s.body.valueCount]) := by
      rw [happ.written_self h.lt_size, argumentRegs_concat, hwritten]
      rfl
    obtain ⟨hfilling', hfill, all, hall, hwrittenAll, hlength⟩ := ih hfilling _ hops' hwritten' (by
      rw [List.length_append, List.length_singleton]
      exact hrun)
    refine ⟨hfilling', happ.fills.trans hfill, all, hall, hwrittenAll, ?_⟩
    rw [hlength, List.length_append, List.length_singleton, List.length_cons]
    omega

theorem filling_of_fillEntry {types : List ValueType} (h : Filling src 0 s)
    (hops : (s.body.block 0).ops = [])
    (hwritten : (blockState s 0).written = []) (hrun : (fillEntry src types).run s = .ok (u, s')) :
    Filling src 0 s' ∧ Fills 0 s s' ∧ ∃ dests target,
      (s'.body.block 0).ops = argumentOps dests ++ [.goto target] ∧
      (blockState s' 0).written = argumentRegs dests ∧ dests.length = types.length ∧
      src.layout.blockAt 0 = .ok target := by
  rw [fillEntry, run_bind_eq_ok] at hrun
  obtain ⟨_, s₁, hargs, hrun⟩ := hrun
  obtain ⟨hfilling₁, hfill₁, dests, hdests, hregs, hlength⟩ :=
    filling_of_arguments h [] (by simpa [argumentOps] using hops)
      (by simpa [argumentRegs] using hwritten) hargs
  simp only [run_bind_eq_ok, run_lift_eq_ok, run_emit_eq_ok] at hrun
  obtain ⟨target, _, ⟨htarget, rfl⟩, rfl⟩ := hrun
  obtain ⟨hfilling, happ⟩ := filling_of_goto hfilling₁ target
  refine ⟨hfilling, hfill₁.trans happ.fills, dests, target, ?_, ?_, by simpa using hlength, htarget⟩
  · rw [happ.ops_self hfilling₁.lt_blockCount, hdests]
  · rw [happ.state]
    split <;> exact hregs

end BytecodeOpt.Ssa.Lift
