import BytecodeOpt.Proofs.Lift.Action

/-!
# Looking registers up

A lookup adds phis and remembers what it finds; it changes nothing else.  What is remembered for a
register at the entry of a block is a phi of the block, or what the only predecessor leaves in it,
and the operands of a phi are what the predecessors leave in its register.
-/

namespace BytecodeOpt.Ssa.Lift

variable {src : Source} {s s' : State} {b : BlockId} {reg : Reg} {v : Operand}
  {operands : List Operand} {depth : Nat}

/-! ## The steps of a lookup -/

def readOver (src : Source) (reg : Reg) (depth : Nat) (b p : BlockId) : LiftM Operand := do
  match (writtenTowards src (← get) p b).lookup reg with
  | some value => return value
  | none => readAtEntry src reg depth p

def cache (s : State) (b : BlockId) (reg : Reg) (v : Operand) : State :=
  { s with blocks := s.blocks.modify b fun st => { st with atEntry := (reg, v) :: st.atEntry } }

def grow (s : State) (b : BlockId) : State :=
  { s with
    body := (s.body.addValue .reference).modifyBlock b fun block =>
      { block with phis := block.phis ++ [{ dest := s.body.valueCount, operands := [] }] } }

def hold (s : State) (b : BlockId) (reg : Reg) (v : Operand) : State :=
  { s with
    blocks := s.blocks.modify b fun st => { st with openPhis := st.openPhis ++ [(reg, v)] } }

def typed (body : Body) (phi : Operand) (operands : List Operand) : Body :=
  match operands.find? (· != phi) with
  | some other => body.setValueType phi (body.valueType other)
  | none => body

def close (s : State) (b : BlockId) (phi : Operand) (operands : List Operand) : State :=
  { s with
    body := (typed s.body phi operands).modifyBlock b fun block =>
      { block with
        phis := block.phis.map fun p => if p.dest = phi then { p with operands } else p } }

theorem run_closePhi (b : BlockId) (phi : Operand) (operands : List Operand) :
    (closePhi b phi operands).run s = .ok ((), close s b phi operands) := rfl

theorem run_readOver (reg : Reg) (depth : Nat) (b p : BlockId) :
    (readOver src reg depth b p).run s =
      match (writtenTowards src s p b).lookup reg with
      | some v => .ok (v, s)
      | none => (readAtEntry src reg depth p).run s := by
  simp only [readOver, StateT.run_bind, StateT.run_get, pure_bind]
  split <;> rfl

theorem run_readAtEntry (reg : Reg) (depth : Nat) (b : BlockId) :
    (readAtEntry src reg (depth + 1) b).run s =
      match (blockState s b).atEntry.lookup reg with
      | some v => .ok (v, s)
      | none =>
        if (blockState s b).isSealed then
          match src.layout.preds b with
          | [] => .error (.undefinedRegister reg)
          | [p] => do
            let (v, s₁) ← (readOver src reg depth b p).run s
            return (v, cache s₁ b reg v)
          | preds => do
            let (operands, s₁) ← (preds.mapM (readOver src reg depth b)).run
              (cache (grow s b) b reg s.body.valueCount)
            return (s.body.valueCount, close s₁ b s.body.valueCount operands)
        else
          .ok (s.body.valueCount,
            cache (hold (grow s b) b reg s.body.valueCount) b reg s.body.valueCount) := by
  rw [readAtEntry]
  simp only [StateT.run_bind, StateT.run_get, pure_bind]
  cases (blockState s b).atEntry.lookup reg with
  | some v => rfl
  | none =>
    cases (blockState s b).isSealed with
    | false => rfl
    | true =>
      cases src.layout.preds b with
      | nil => rfl
      | cons p rest =>
        cases rest with
        | nil => rfl
        | cons q rest => rfl

/-! ## What the steps change -/

theorem blockState_cache (s : State) (b c : BlockId) (reg : Reg) (v : Operand) :
    blockState (cache s b reg v) c =
      if b = c ∧ c < s.blocks.size then
        { blockState s c with atEntry := (reg, v) :: (blockState s c).atEntry }
      else blockState s c :=
  blockState_modify b c _ s.body

theorem blockState_hold (s : State) (b c : BlockId) (reg : Reg) (v : Operand) :
    blockState (hold s b reg v) c =
      if b = c ∧ c < s.blocks.size then
        { blockState s c with openPhis := (blockState s c).openPhis ++ [(reg, v)] }
      else blockState s c :=
  blockState_modify b c _ s.body

theorem block_grow (s : State) (b c : BlockId) :
    (grow s b).body.block c =
      if b = c ∧ c < s.body.blockCount then
        { s.body.block c with
          phis := (s.body.block c).phis ++ [{ dest := s.body.valueCount, operands := [] }] }
      else s.body.block c :=
  Body.block_modifyBlock (s.body.addValue .reference) b c _

@[simp] theorem blockCount_typed (body : Body) (phi : Operand) (operands : List Operand) :
    (typed body phi operands).blockCount = body.blockCount := by
  unfold typed
  split <;> rfl

@[simp] theorem valueCount_typed (body : Body) (phi : Operand) (operands : List Operand) :
    (typed body phi operands).valueCount = body.valueCount := by
  unfold typed
  split <;> simp

@[simp] theorem block_typed (body : Body) (phi : Operand) (operands : List Operand) (c : BlockId) :
    (typed body phi operands).block c = body.block c := by
  unfold typed
  split <;> rfl

@[simp] theorem method_typed (body : Body) (phi : Operand) (operands : List Operand) :
    (typed body phi operands).method = body.method := by
  unfold typed
  split <;> rfl

theorem block_close (s : State) (b c : BlockId) (phi : Operand) (operands : List Operand) :
    (close s b phi operands).body.block c =
      if b = c ∧ c < s.body.blockCount then
        { s.body.block c with
          phis := (s.body.block c).phis.map fun p =>
            if p.dest = phi then { p with operands } else p }
      else s.body.block c := by
  have := Body.block_modifyBlock (typed s.body phi operands) b c fun block =>
    { block with phis := block.phis.map fun p => if p.dest = phi then { p with operands } else p }
  rwa [blockCount_typed, block_typed] at this

theorem phiDests_close (s : State) (b c : BlockId) (phi : Operand) (operands : List Operand) :
    ((close s b phi operands).body.block c).phiDests = (s.body.block c).phiDests := by
  rw [block_close]
  split
  · simp only [Block.phiDests, List.map_map]
    refine List.map_congr_left fun p _ => ?_
    simp only [Function.comp_apply]
    split <;> rfl
  · rfl

theorem cache_hold_comm (s : State) (b : BlockId) (reg : Reg) (v : Operand) :
    cache (hold s b reg v) b reg v = hold (cache s b reg v) b reg v := by
  simp only [cache, hold]
  congr 1
  refine Array.ext (by simp) fun i hi _ => ?_
  simp only [Array.getElem_modify]
  split <;> rfl

/-! ## What a lookup leaves as it was -/

/-- The second state knows more phis and more of the registers at the entries; all else is the
same. -/
structure Extends (s s' : State) : Prop where
  size : s'.blocks.size = s.blocks.size
  blockCount : s'.body.blockCount = s.body.blockCount
  method : s'.body.method = s.body.method
  valueCount : s.body.valueCount ≤ s'.body.valueCount
  block : ∀ b, s'.body.block b = { s.body.block b with phis := (s'.body.block b).phis }
  state : ∀ b, blockState s' b =
    { blockState s b with
      atEntry := (blockState s' b).atEntry
      openPhis := (blockState s' b).openPhis }
  atEntry : ∀ b, (blockState s b).atEntry ⊆ (blockState s' b).atEntry
  phiDests : ∀ b, (s.body.block b).phiDests ⊆ (s'.body.block b).phiDests
  openPhis : ∀ b, (blockState s b).openPhis ⊆ (blockState s' b).openPhis

namespace Extends

theorem refl (s : State) : Extends s s := by
  constructor <;> simp

theorem trans {s₁ s₂ s₃ : State} (h : Extends s₁ s₂) (h' : Extends s₂ s₃) : Extends s₁ s₃ where
  size := h'.size.trans h.size
  blockCount := h'.blockCount.trans h.blockCount
  method := h'.method.trans h.method
  valueCount := Nat.le_trans h.valueCount h'.valueCount
  block := fun b => by rw [h'.block b, h.block b]
  state := fun b => by rw [h'.state b, h.state b]
  atEntry := fun b => List.Subset.trans (h.atEntry b) (h'.atEntry b)
  phiDests := fun b => List.Subset.trans (h.phiDests b) (h'.phiDests b)
  openPhis := fun b => List.Subset.trans (h.openPhis b) (h'.openPhis b)

variable (h : Extends s s') (b : BlockId)

include h

theorem ops : (s'.body.block b).ops = (s.body.block b).ops := by rw [h.block b]

theorem preds : (s'.body.block b).preds = (s.body.block b).preds := by rw [h.block b]

theorem handlers : (s'.body.block b).handlers = (s.body.block b).handlers := by rw [h.block b]

theorem written : (blockState s' b).written = (blockState s b).written := by rw [h.state b]

theorem beforeThrow : (blockState s' b).beforeThrow = (blockState s b).beforeThrow := by
  rw [h.state b]

theorem isFilled : (blockState s' b).isFilled = (blockState s b).isFilled := by rw [h.state b]

theorem isSealed : (blockState s' b).isSealed = (blockState s b).isSealed := by rw [h.state b]

theorem writtenTowards (target : BlockId) :
    writtenTowards src s' b target = writtenTowards src s b target := by
  simp only [Lift.writtenTowards, h.written b, h.beforeThrow b]

end Extends

theorem Extends.cache (s : State) (b : BlockId) (reg : Reg) (v : Operand) :
    Extends s (cache s b reg v) where
  size := by simp [Lift.cache]
  blockCount := rfl
  method := rfl
  valueCount := Nat.le_refl _
  block := fun _ => rfl
  state := fun c => by rw [blockState_cache]; split <;> rfl
  atEntry := fun c => by rw [blockState_cache]; split <;> simp
  phiDests := fun c => List.Subset.refl _
  openPhis := fun c => by rw [blockState_cache]; split <;> simp

theorem Extends.hold (s : State) (b : BlockId) (reg : Reg) (v : Operand) :
    Extends s (hold s b reg v) where
  size := by simp [Lift.hold]
  blockCount := rfl
  method := rfl
  valueCount := Nat.le_refl _
  block := fun _ => rfl
  state := fun c => by rw [blockState_hold]; split <;> rfl
  atEntry := fun c => by rw [blockState_hold]; split <;> simp
  phiDests := fun c => List.Subset.refl _
  openPhis := fun c => by rw [blockState_hold]; split <;> simp

theorem Extends.grow (s : State) (b : BlockId) : Extends s (grow s b) where
  size := rfl
  blockCount := by simp [Lift.grow]
  method := rfl
  valueCount := by simp [Lift.grow]
  block := fun c => by rw [block_grow]; split <;> rfl
  state := fun _ => rfl
  atEntry := fun c => List.Subset.refl _
  phiDests := fun c => by rw [block_grow]; split <;> simp [Block.phiDests]
  openPhis := fun c => List.Subset.refl _

theorem Extends.close (s : State) (b : BlockId) (phi : Operand) (operands : List Operand) :
    Extends s (close s b phi operands) where
  size := rfl
  blockCount := by simp [Lift.close]
  method := by simp [Lift.close, Body.modifyBlock]
  valueCount := by simp [Lift.close]
  block := fun c => by rw [block_close]; split <;> rfl
  state := fun _ => rfl
  atEntry := fun c => List.Subset.refl _
  phiDests := fun c => by rw [phiDests_close]; exact List.Subset.refl _
  openPhis := fun c => List.Subset.refl _

/-! ## What is known of registers -/

/-- What a register holds in a block: what was written, else what the block was entered with. -/
def Holds (written atEntry : Registers) (reg : Reg) (v : Operand) : Prop :=
  written.lookup reg = some v ∨ (written.lookup reg = none ∧ (reg, v) ∈ atEntry)

theorem Holds.mono {written atEntry atEntry' : Registers} (h : Holds written atEntry reg v)
    (hsub : atEntry ⊆ atEntry') :
    Holds written atEntry' reg v :=
  h.imp_right (And.imp_right fun hmem => hsub hmem)

theorem holds_cons {written atEntry : Registers} {dest reg : Reg} {value v : Operand}
    (h : Holds ((dest, value) :: written) atEntry reg v) :
    (reg = dest ∧ v = value) ∨ (reg ≠ dest ∧ Holds written atEntry reg v) := by
  rw [Holds, List.lookup_cons] at h
  by_cases heq : reg = dest
  · grind
  · rw [beq_false_of_ne heq] at h
    exact .inr ⟨heq, h⟩

theorem Holds.mem {written atEntry : Registers} (h : Holds written atEntry reg v) :
    (reg, v) ∈ written ∨ (reg, v) ∈ atEntry :=
  h.imp Table.mem_of_lookup And.right

def AtExit (src : Source) (s : State) (p b : BlockId) (reg : Reg) (v : Operand) : Prop :=
  (blockState s p).isFilled = true ∧ Holds (writtenTowards src s p b) (blockState s p).atEntry reg v

theorem AtExit.mono {p b : BlockId} (h : AtExit src s p b reg v) (hext : Extends s s') :
    AtExit src s' p b reg v := by
  refine ⟨(hext.isFilled p).trans h.1, ?_⟩
  rw [hext.writtenTowards p b]
  exact h.2.mono (hext.atEntry p)

/-- Where registers can be looked up: a block that is sealed or where edges meet. -/
def Readable (src : Source) (s : State) (b : BlockId) : Prop :=
  b < src.layout.blocks.size ∧ ((blockState s b).isSealed = true ∨ 2 ≤ (src.layout.preds b).length)

theorem Readable.mono (h : Readable src s b) (hext : Extends s s') : Readable src s' b :=
  ⟨h.1, h.2.imp_left fun hsealed => (hext.isSealed b).trans hsealed⟩

structure Inv (src : Source) (s : State) : Prop where
  size : s.blocks.size = src.layout.blocks.size
  blockCount : s.body.blockCount = src.layout.blocks.size
  filled : ∀ b, (blockState s b).isSealed = true → ∀ p ∈ src.layout.preds b,
    (blockState s p).isFilled = true
  readable : ∀ b, (blockState s b).isFilled = true → Readable src s b
  atEntry : ∀ b, ∀ e ∈ (blockState s b).atEntry, e.2 ∈ (s.body.block b).phiDests ∨
    ∃ p, src.layout.preds b = [p] ∧ AtExit src s p b e.1 e.2
  cached : ∀ b, ∀ v ∈ (s.body.block b).phiDests, ∃ reg, (reg, v) ∈ (blockState s b).atEntry
  operands : ∀ b, ∀ phi ∈ (s.body.block b).phis, phi.operands = [] ∨
    ∃ reg, (reg, phi.dest) ∈ (blockState s b).atEntry ∧
      List.Forall₂ (fun p v => AtExit src s p b reg v) (src.layout.preds b) phi.operands
  openPhis : ∀ b, ∀ e ∈ (blockState s b).openPhis, e ∈ (blockState s b).atEntry ∧
    e.2 ∈ (s.body.block b).phiDests ∧ (blockState s b).isSealed = false
  phi_preds : ∀ b, (s.body.block b).phis ≠ [] → 2 ≤ (src.layout.preds b).length
  owner : ∀ b, ∀ e ∈ (blockState s b).atEntry, ∀ e' ∈ (blockState s b).atEntry, e.2 = e'.2 →
    e.2 ∈ (s.body.block b).phiDests → e = e'
  defined_nodup : s.body.definedValues.Nodup
  defined_lt : ∀ v ∈ s.body.definedValues, v < s.body.valueCount

theorem mem_preds {layout : Layout} {p b : BlockId} :
    p ∈ layout.preds b ↔ p < layout.blocks.size ∧ b ∈ layout.successors p := by
  simp [Layout.preds, Layout.blockIds]

section

variable (h : Inv src s)
include h

theorem Inv.operands_mono (hext : Extends s s') {phi : Phi} (hphi : phi ∈ (s.body.block b).phis) :
    phi.operands = [] ∨
      ∃ reg, (reg, phi.dest) ∈ (blockState s' b).atEntry ∧
        List.Forall₂ (fun p v => AtExit src s' p b reg v) (src.layout.preds b) phi.operands := by
  refine (h.operands b phi hphi).imp_right ?_
  rintro ⟨reg, hmem, hall⟩
  exact ⟨reg, hext.atEntry b hmem, hall.imp fun _ _ hexit => hexit.mono hext⟩

theorem Inv.atEntry_mono (hext : Extends s s') {e : Reg × Operand}
    (he : e ∈ (blockState s b).atEntry) :
    e.2 ∈ (s'.body.block b).phiDests ∨ ∃ p, src.layout.preds b = [p] ∧ AtExit src s' p b e.1 e.2 :=
  (h.atEntry b e he).imp (fun hmem => hext.phiDests b hmem)
    fun ⟨p, hp, hexit⟩ => ⟨p, hp, hexit.mono hext⟩

theorem Inv.filled_mono (hext : Extends s s') (b : BlockId)
    (hsealed : (blockState s' b).isSealed = true) : ∀ p ∈ src.layout.preds b,
      (blockState s' p).isFilled = true := by
  intro p hp
  rw [hext.isFilled p]
  exact h.filled b ((hext.isSealed b).symm.trans hsealed) p hp

theorem Inv.readable_mono (hext : Extends s s') (b : BlockId)
    (hfilled : (blockState s' b).isFilled = true) : Readable src s' b :=
  (h.readable b ((hext.isFilled b).symm.trans hfilled)).mono hext

theorem Inv.phiDests_of_pred {b p : BlockId} (hpreds : src.layout.preds b = [p]) :
    (s.body.block b).phiDests = [] := by
  by_contra hne
  have := h.phi_preds b fun hnil => hne (by rw [Block.phiDests, hnil, List.map_nil])
  rw [hpreds] at this
  simp at this

theorem Inv.cache {b p : BlockId} (hpreds : src.layout.preds b = [p])
    (hv : AtExit src s p b reg v) :
    Inv src (cache s b reg v) := by
  have hext := Extends.cache s b reg v
  have hentry : ∀ c, ∀ e ∈ (blockState (Lift.cache s b reg v) c).atEntry,
      e ∈ (blockState s c).atEntry ∨ (c = b ∧ e = (reg, v)) := by
    intro c e he
    rw [blockState_cache] at he
    split at he
    · grind
    · exact .inl he
  refine { h with
    size := hext.size.trans h.size, filled := h.filled_mono hext, readable := h.readable_mono hext
    operands := fun c phi hphi => h.operands_mono hext hphi
    atEntry := ?_, cached := ?_, openPhis := ?_, owner := ?_ }
  · intro c e he
    rcases hentry c e he with he | ⟨rfl, rfl⟩
    · exact h.atEntry_mono hext he
    · exact .inr ⟨p, hpreds, hv.mono hext⟩
  · intro c w hw
    obtain ⟨r, hr⟩ := h.cached c w hw
    exact ⟨r, hext.atEntry c hr⟩
  · intro c e he
    have he' : e ∈ (blockState s c).openPhis := by
      rw [blockState_cache] at he
      split at he <;> exact he
    obtain ⟨hmem, hdest, hopen⟩ := h.openPhis c e he'
    exact ⟨hext.atEntry c hmem, hdest, (hext.isSealed c).trans hopen⟩
  · intro c e he e' he' heq hdest
    rcases hentry c e he with he | ⟨rfl, -⟩
    · rcases hentry c e' he' with he' | ⟨rfl, -⟩
      · exact h.owner c e he e' he' heq hdest
      · simp [Lift.cache, h.phiDests_of_pred hpreds] at hdest
    · simp [Lift.cache, h.phiDests_of_pred hpreds] at hdest

theorem Inv.hold (hmem : (reg, v) ∈ (blockState s b).atEntry) (hv : v ∈ (s.body.block b).phiDests)
    (hopen : (blockState s b).isSealed = false) : Inv src (hold s b reg v) := by
  have hext := Extends.hold s b reg v
  have hentry : ∀ c, (blockState (Lift.hold s b reg v) c).atEntry = (blockState s c).atEntry := by
    intro c
    rw [blockState_hold]
    split <;> rfl
  refine { h with
    size := hext.size.trans h.size, filled := h.filled_mono hext, readable := h.readable_mono hext
    operands := fun c phi hphi => h.operands_mono hext hphi
    atEntry := fun c e he => h.atEntry_mono hext (hentry c ▸ he)
    cached := fun c w hw => hentry c ▸ h.cached c w hw
    openPhis := ?_, owner := ?_ }
  · intro c e he
    rw [hentry c, hext.isSealed c]
    rw [blockState_hold] at he
    split at he
    · rename_i hc
      rcases List.mem_append.1 he with he | he
      · exact h.openPhis c e he
      · obtain rfl := List.mem_singleton.1 he
        rw [← hc.1]
        exact ⟨hmem, hv, hopen⟩
    · exact h.openPhis c e he
  · intro c e he e' he'
    rw [hentry c] at he he'
    exact h.owner c e he e' he'

theorem Inv.addPhi (hb : b < src.layout.blocks.size) (hpreds : 2 ≤ (src.layout.preds b).length)
    (reg : Reg) : Inv src (Lift.cache (grow s b) b reg s.body.valueCount) := by
  have hext := (Extends.grow s b).trans (Extends.cache (grow s b) b reg s.body.valueCount)
  have hbsize : b < s.blocks.size := h.size ▸ hb
  have hbcount : b < s.body.blockCount := h.blockCount ▸ hb
  have hphis : ∀ c, ((Lift.cache (grow s b) b reg s.body.valueCount).body.block c).phis =
      (s.body.block c).phis ++ if b = c then [⟨s.body.valueCount, []⟩] else [] := by
    intro c
    change ((grow s b).body.block c).phis = _
    rw [block_grow]
    by_cases hc : b = c
    · rw [if_pos ⟨hc, hc ▸ hbcount⟩, if_pos hc]
    · rw [if_neg (fun h => hc h.1), if_neg hc, List.append_nil]
  have hdests : ∀ c, ((Lift.cache (grow s b) b reg s.body.valueCount).body.block c).phiDests =
      (s.body.block c).phiDests ++ if b = c then [s.body.valueCount] else [] := by
    intro c
    rw [Block.phiDests, hphis, List.map_append]
    split <;> rfl
  have hentry : ∀ c, (blockState (Lift.cache (grow s b) b reg s.body.valueCount) c).atEntry =
      (if b = c then [(reg, s.body.valueCount)] else []) ++ (blockState s c).atEntry := by
    intro c
    rw [blockState_cache]
    by_cases hc : b = c
    · rw [if_pos ⟨hc, hc ▸ hbsize⟩, if_pos hc]
      rfl
    · rw [if_neg (fun h => hc h.1), if_neg hc]
      rfl
  have hperm : (Lift.cache (grow s b) b reg s.body.valueCount).body.definedValues.Perm
      ([s.body.valueCount] ++ s.body.definedValues) := by
    refine Body.definedValues_modifyBlock_perm hbcount ?_
    · simp only [Block.definedValues, Block.phiDests, Block.opDests, List.map_append, List.map_cons,
        List.map_nil, List.append_assoc]
      exact List.perm_middle
  have hnew : s.body.valueCount ∉ s.body.definedValues := fun hc =>
    Nat.lt_irrefl _ (h.defined_lt _ hc)
  constructor
  case size => rw [hext.size, h.size]
  case blockCount => rw [hext.blockCount, h.blockCount]
  case filled => exact h.filled_mono hext
  case readable => exact h.readable_mono hext
  case atEntry =>
    intro c e he
    rw [hentry] at he
    rcases List.mem_append.1 he with he | he
    · grind
    · exact h.atEntry_mono hext he
  case cached =>
    intro c w hw
    rw [hdests] at hw
    rw [hentry]
    rcases List.mem_append.1 hw with hw | hw
    · obtain ⟨r, hr⟩ := h.cached c w hw
      exact ⟨r, List.mem_append_right _ hr⟩
    · grind
  case operands =>
    intro c phi hphi
    rw [hphis] at hphi
    rcases List.mem_append.1 hphi with hphi | hphi
    · exact h.operands_mono hext hphi
    · grind
  case openPhis =>
    intro c e he
    have he' : e ∈ (blockState s c).openPhis := by
      rw [blockState_cache] at he
      split at he <;> exact he
    obtain ⟨hmem, hdest, hopen⟩ := h.openPhis c e he'
    exact ⟨hext.atEntry c hmem, hext.phiDests c hdest, (hext.isSealed c).trans hopen⟩
  case phi_preds =>
    intro c hc
    by_cases hbc : b = c
    · grind
    · rw [hphis, if_neg hbc, List.append_nil] at hc
      exact h.phi_preds c hc
  case owner =>
    -- the new phi is remembered for nothing yet
    have hfresh : ∀ e ∈ (blockState s b).atEntry, e.2 ≠ s.body.valueCount := by
      rintro e he heq
      rcases h.atEntry b e he with hdest | ⟨p, hp, -⟩
      · exact hnew (heq ▸ Body.mem_definedValues.2 ⟨b, hbcount, List.mem_append_left _ hdest⟩)
      · simp [hp] at hpreds
    intro c e he e' he' heq hdest
    rw [hentry] at he he'
    rw [hdests] at hdest
    by_cases hbc : b = c
    · subst hbc
      simp only [if_true, List.singleton_append, List.mem_cons] at he he'
      rcases he with rfl | he
      · grind
      · rcases he' with rfl | he'
        · exact absurd heq (hfresh e he)
        · refine h.owner b e he e' he' heq ?_
          rcases List.mem_append.1 hdest with hdest | hdest
          · exact hdest
          · exact absurd (by simpa using hdest) (hfresh e he)
    · simp only [if_neg hbc, List.nil_append, List.append_nil] at he he' hdest
      exact h.owner c e he e' he' heq hdest
  case defined_nodup =>
    rw [hperm.nodup_iff]
    exact List.nodup_cons.2 ⟨hnew, h.defined_nodup⟩
  case defined_lt =>
    intro w hw
    have hcount : (Lift.cache (grow s b) b reg s.body.valueCount).body.valueCount =
        s.body.valueCount + 1 := by
      simp [Lift.cache, grow]
    rw [hcount]
    rcases List.mem_append.1 (hperm.subset hw) with hw | hw
    · exact Nat.lt_succ_of_le (Nat.le_of_eq (List.mem_singleton.1 hw))
    · exact Nat.lt_succ_of_lt (h.defined_lt w hw)

theorem Inv.close {phi : Operand} (hmem : (reg, phi) ∈ (blockState s b).atEntry)
    (hall : List.Forall₂ (fun p v => AtExit src s p b reg v) (src.layout.preds b) operands) :
    Inv src (close s b phi operands) := by
  have hext := Extends.close s b phi operands
  have hdefined : (Lift.close s b phi operands).body.definedValues = s.body.definedValues := by
    refine Body.definedValues_congr hext.blockCount fun c _ => ?_
    simp only [Block.definedValues, phiDests_close, Block.opDests, hext.ops c]
  constructor
  case size => exact h.size
  case blockCount => rw [hext.blockCount, h.blockCount]
  case filled => exact h.filled_mono hext
  case readable => exact h.readable_mono hext
  case atEntry => exact fun c e he => h.atEntry_mono hext he
  case cached =>
    intro c w hw
    rw [phiDests_close] at hw
    exact h.cached c w hw
  case operands =>
    intro c p hp
    rw [block_close] at hp
    split at hp
    · rename_i hc
      obtain ⟨old, hold, rfl⟩ := List.mem_map.1 hp
      split
      · rename_i hdest
        right
        refine ⟨reg, ?_, ?_⟩
        · rw [hdest, ← hc.1]
          exact hmem
        · rw [← hc.1]
          exact hall.imp fun _ _ hexit => hexit.mono hext
      · exact h.operands_mono hext hold
    · exact h.operands_mono hext hp
  case openPhis =>
    intro c e he
    rw [phiDests_close]
    exact h.openPhis c e he
  case phi_preds =>
    intro c hc
    refine h.phi_preds c fun hnil => hc ?_
    rw [block_close]
    split <;> simp [hnil]
  case owner =>
    intro c e he e' he' heq hdest
    rw [phiDests_close] at hdest
    exact h.owner c e he e' he' heq hdest
  case defined_nodup => rw [hdefined]; exact h.defined_nodup
  case defined_lt =>
    intro w hw
    rw [hdefined] at hw
    exact Nat.lt_of_lt_of_le (h.defined_lt w hw) hext.valueCount

end

/-! ## A whole lookup -/

def Unfinished (s : State) (b : BlockId) (v : Operand) : Prop :=
  ∃ phi ∈ (s.body.block b).phis, phi.dest = v ∧ phi.operands = []

/-- A lookup only extends a state, and the phis it leaves unfinished wait for their block. -/
structure Looked (s s' : State) : Prop extends Extends s s' where
  settled : ∀ b v, Unfinished s' b v → Unfinished s b v ∨
    ∃ reg, (reg, v) ∈ (blockState s' b).openPhis

theorem Looked.refl (s : State) : Looked s s := ⟨Extends.refl s, fun _ _ => .inl⟩

theorem Looked.trans {s₁ s₂ s₃ : State} (h : Looked s₁ s₂) (h' : Looked s₂ s₃) : Looked s₁ s₃ := by
  refine ⟨h.toExtends.trans h'.toExtends, ?_⟩
  intro b v hv
  rcases h'.settled b v hv with hv | hv
  · exact (h.settled b v hv).imp_right fun ⟨reg, hmem⟩ => ⟨reg, h'.openPhis b hmem⟩
  · exact .inr hv

theorem Looked.cache (s : State) (b : BlockId) (reg : Reg) (v : Operand) :
    Looked s (cache s b reg v) :=
  ⟨Extends.cache s b reg v, fun _ _ => .inl⟩

theorem unfinished_grow {b c : BlockId} (h : Unfinished (grow s b) c v) :
    Unfinished s c v ∨ (c = b ∧ v = s.body.valueCount) := by
  obtain ⟨phi, hphi, hdest, hoperands⟩ := h
  rw [block_grow] at hphi
  split at hphi
  · rename_i hc
    rcases List.mem_append.1 hphi with hphi | hphi
    · exact .inl ⟨phi, hphi, hdest, hoperands⟩
    · grind
  · exact .inl ⟨phi, hphi, hdest, hoperands⟩

theorem unfinished_close {b c : BlockId} {phi v : Operand} (hb : b < s.body.blockCount)
    (hne : operands ≠ [])
    (h : Unfinished (close s b phi operands) c v) : Unfinished s c v ∧ ¬ (c = b ∧ v = phi) := by
  obtain ⟨p, hp, hdest, hoperands⟩ := h
  rw [block_close] at hp
  split at hp
  · obtain ⟨old, hold, rfl⟩ := List.mem_map.1 hp
    split at hoperands
    · exact absurd hoperands hne
    · rename_i hphi
      rw [if_neg hphi] at hdest
      exact ⟨⟨old, hold, hdest, hoperands⟩, fun hc => hphi (hdest.trans hc.2)⟩
  · rename_i hc
    exact ⟨⟨p, hp, hdest, hoperands⟩, fun h => hc ⟨h.1.symm, h.1 ▸ hb⟩⟩

def ReadsEntry (src : Source) (reg : Reg) (b : BlockId) (s : State) (v : Operand) (s' : State) :
    Prop :=
  Inv src s' ∧ Looked s s' ∧ (reg, v) ∈ (blockState s' b).atEntry

theorem readsEntry_of_unsealed (h : Inv src s) (hb : b < src.layout.blocks.size)
    (hpreds : 2 ≤ (src.layout.preds b).length) (hopen : (blockState s b).isSealed = false)
    (reg : Reg) :
    ReadsEntry src reg b s s.body.valueCount
      (cache (hold (grow s b) b reg s.body.valueCount) b reg s.body.valueCount) := by
  have hadd := h.addPhi hb hpreds reg
  have hsize : b < (grow s b).blocks.size := h.size ▸ hb
  have hentry : (reg, s.body.valueCount) ∈
      (blockState (Lift.cache (grow s b) b reg s.body.valueCount) b).atEntry := by
    rw [blockState_cache, if_pos ⟨rfl, hsize⟩]
    simp
  have hdest : s.body.valueCount ∈
      ((Lift.cache (grow s b) b reg s.body.valueCount).body.block b).phiDests := by
    change _ ∈ ((grow s b).body.block b).phiDests
    rw [block_grow, if_pos ⟨rfl, h.blockCount ▸ hb⟩]
    simp [Block.phiDests]
  rw [cache_hold_comm]
  have hhold := Extends.hold (Lift.cache (grow s b) b reg s.body.valueCount) b reg s.body.valueCount
  have hadded := (Extends.grow s b).trans (Extends.cache (grow s b) b reg s.body.valueCount)
  refine ⟨hadd.hold hentry hdest ((hadded.isSealed b).trans hopen), ⟨?_, ?_⟩,
    hhold.atEntry b hentry⟩
  · exact hadded.trans hhold
  · intro c v hv
    rcases unfinished_grow (c := c) (v := v) hv with hv | ⟨rfl, rfl⟩
    · exact .inl hv
    · right
      refine ⟨reg, ?_⟩
      rw [blockState_hold, if_pos ⟨rfl, by simpa [Lift.cache] using hsize⟩]
      simp

theorem readsEntry_of_pred (h : Inv src s) {b p : BlockId} (hb : b < src.layout.blocks.size)
    (hpreds : src.layout.preds b = [p]) {s₁ : State} (hinv : Inv src s₁) (hlooked : Looked s s₁)
    (hexit : AtExit src s₁ p b reg v) : ReadsEntry src reg b s v (cache s₁ b reg v) := by
  refine ⟨hinv.cache hpreds hexit, hlooked.trans (Looked.cache s₁ b reg v), ?_⟩
  rw [blockState_cache, if_pos ⟨rfl, by rw [hlooked.size, h.size]; exact hb⟩]
  simp

theorem readsEntry_of_phi (h : Inv src s) (hb : b < src.layout.blocks.size)
    (hpreds : 2 ≤ (src.layout.preds b).length) {s₁ : State} (hinv : Inv src s₁)
    (hlooked : Looked (cache (grow s b) b reg s.body.valueCount) s₁)
    (hall : List.Forall₂ (fun p v => AtExit src s₁ p b reg v) (src.layout.preds b) operands) :
    ReadsEntry src reg b s s.body.valueCount (close s₁ b s.body.valueCount operands) := by
  have hsize : b < (grow s b).blocks.size := h.size ▸ hb
  have hentry : (reg, s.body.valueCount) ∈ (blockState s₁ b).atEntry := by
    refine hlooked.atEntry b ?_
    rw [blockState_cache, if_pos ⟨rfl, hsize⟩]
    simp
  have hne : operands ≠ [] := by
    rintro rfl
    rw [List.forall₂_nil_right_iff.1 hall] at hpreds
    simp at hpreds
  have hclose := Extends.close s₁ b s.body.valueCount operands
  have hcount : b < s₁.body.blockCount := hinv.blockCount ▸ hb
  refine ⟨hinv.close hentry hall, ⟨?_, ?_⟩, hclose.atEntry b hentry⟩
  · exact (((Extends.grow s b).trans (Extends.cache _ _ _ _)).trans hlooked.toExtends).trans hclose
  · intro c v hv
    -- what the new phi lacked it has now
    obtain ⟨hv, hnot⟩ := unfinished_close hcount hne hv
    rcases hlooked.settled c v hv with hv | hv
    · rcases unfinished_grow (c := c) (v := v) hv with hv | hv
      · exact .inl hv
      · exact absurd hv hnot
    · exact .inr hv

/-- Over an edge into a sealed block, whose predecessors are filled, a lookup finds what the
predecessor leaves in the register. -/
theorem atExit_of_readOver {b p : BlockId}
    (hentry : ∀ {b s v s'}, Inv src s → Readable src s b →
      (readAtEntry src reg depth b).run s = .ok (v, s') → ReadsEntry src reg b s v s') (hp :
        p ∈ src.layout.preds b)
    (h : Inv src s) (hsealed : (blockState s b).isSealed = true)
    (hrun : (readOver src reg depth b p).run s = .ok (v, s')) :
    Inv src s' ∧ Looked s s' ∧ AtExit src s' p b reg v := by
  have hfilled := h.filled b hsealed p hp
  rw [run_readOver] at hrun
  split at hrun
  · rename_i value hvalue
    obtain ⟨rfl, rfl⟩ : value = v ∧ s = s' := by simpa using hrun
    exact ⟨h, Looked.refl s, hfilled, .inl hvalue⟩
  · rename_i hvalue
    obtain ⟨hinv, hlooked, hmem⟩ := hentry h (h.readable p hfilled) hrun
    refine ⟨hinv, hlooked, (hlooked.isFilled p).trans hfilled, .inr ⟨?_, hmem⟩⟩
    rw [hlooked.writtenTowards p b]
    exact hvalue

theorem atExit_of_mapM_readOver (hentry : ∀ {b s v s'}, Inv src s → Readable src s b →
      (readAtEntry src reg depth b).run s = .ok (v, s') → ReadsEntry src reg b s v s')
        (h : Inv src s)
    (hsealed : (blockState s b).isSealed = true)
    (hrun : ((src.layout.preds b).mapM (readOver src reg depth b)).run s = .ok (operands, s')) :
    Inv src s' ∧ Looked s s' ∧ List.Forall₂ (fun p v => AtExit src s' p b reg v)
      (src.layout.preds b) operands := by
  obtain ⟨⟨hinv, -⟩, hlooked, hall⟩ := run_mapM_eq_ok
    (fun s => Inv src s ∧ (blockState s b).isSealed = true) Looked
    (fun s p v => AtExit src s p b reg v) Looked.refl Looked.trans
    (fun hlooked hexit => hexit.mono hlooked.toExtends)
    (fun p hp s₁ v s₂ hs₁ hread => by
      obtain ⟨hinv, hlooked, hexit⟩ := atExit_of_readOver hentry hp hs₁.1 hs₁.2 hread
      exact ⟨⟨hinv, (hlooked.isSealed b).trans hs₁.2⟩, hlooked, hexit⟩)
    ⟨h, hsealed⟩ hrun
  exact ⟨hinv, hlooked, hall⟩

theorem readsEntry_of_run (h : Inv src s) (hb : Readable src s b)
    (hrun : (readAtEntry src reg depth b).run s = .ok (v, s')) : ReadsEntry src reg b s v s' := by
  induction depth generalizing b s v s' with
  | zero =>
    rw [readAtEntry, run_throw] at hrun
    cases hrun
  | succ depth ih =>
    rw [run_readAtEntry] at hrun
    split at hrun
    · rename_i value hvalue
      obtain ⟨rfl, rfl⟩ : value = v ∧ s = s' := by simpa using hrun
      exact ⟨h, Looked.refl s, Table.mem_of_lookup hvalue⟩
    · split at hrun
      · rename_i hsealed
        split at hrun
        · simp at hrun
        · rename_i p hpreds
          obtain ⟨⟨value, s₁⟩, hread, hrest⟩ := Fallible.bind_eq_ok.1 hrun
          cases Fallible.pure_eq_ok.1 hrest
          obtain ⟨hinv, hlooked, hexit⟩ :=
            atExit_of_readOver (fun h hb hread => ih h hb hread) (by simp [hpreds]) h hsealed hread
          exact readsEntry_of_pred h hb.1 hpreds hinv hlooked hexit
        · rename_i hnil hone
          have htwo : 2 ≤ (src.layout.preds b).length := by
            rcases hpreds : src.layout.preds b with _ | ⟨p, _ | ⟨q, rest⟩⟩
            · exact absurd hpreds hnil
            · exact absurd hpreds (hone p)
            · simp
          have hadd := h.addPhi hb.1 htwo reg
          have hext := (Extends.grow s b).trans
            (Extends.cache (grow s b) b reg s.body.valueCount)
          obtain ⟨⟨operands, s₁⟩, hread, hrest⟩ := Fallible.bind_eq_ok.1 hrun
          cases Fallible.pure_eq_ok.1 hrest
          obtain ⟨hinv, hlooked, hall⟩ :=
            atExit_of_mapM_readOver (fun h hb hread => ih h hb hread) hadd
              ((hext.isSealed b).trans hsealed) hread
          exact readsEntry_of_phi h hb.1 htwo hinv hlooked hall
      · rename_i hsealed
        obtain ⟨rfl, rfl⟩ : s.body.valueCount = v ∧ _ = s' := by simpa using hrun
        exact readsEntry_of_unsealed h hb.1 (hb.2.resolve_left hsealed)
          (by simpa using hsealed) reg

end BytecodeOpt.Ssa.Lift
