import BytecodeOpt.Proofs.Lift.Fill

/-!
# Sealing a block

Once all predecessors of a block are filled, the phis that waited for them get their operands.
-/

namespace BytecodeOpt.Ssa.Lift

variable {src : Source} {b c : BlockId} {s s' : State}

/-! ## What stays from one block to the next -/

/-- Filled blocks stay as they are, and no more is forgotten than which phis are open. -/
structure Evolves (s s' : State) : Prop extends Grows s s' where
  filled : ∀ c, (blockState s c).isFilled = true → (blockState s' c).isFilled = true ∧
    (s'.body.block c).ops = (s.body.block c).ops ∧
    (blockState s' c).written = (blockState s c).written ∧
    (blockState s' c).beforeThrow = (blockState s c).beforeThrow
  isSealed : ∀ c, (blockState s c).isSealed = true → (blockState s' c).isSealed = true

theorem Evolves.refl (s : State) : Evolves s s :=
  ⟨(Extends.refl s).grows, by simp, by simp⟩

theorem Evolves.trans {s₁ s₂ s₃ : State} (h : Evolves s₁ s₂) (h' : Evolves s₂ s₃) :
    Evolves s₁ s₃ where
  toGrows := h.toGrows.trans h'.toGrows
  filled := fun c hc => by
    obtain ⟨h₁, h₂, h₃, h₄⟩ := h.filled c hc
    obtain ⟨h₁', h₂', h₃', h₄'⟩ := h'.filled c h₁
    exact ⟨h₁', h₂'.trans h₂, h₃'.trans h₃, h₄'.trans h₄⟩
  isSealed := fun c hc => h'.isSealed c (h.isSealed c hc)

theorem Evolves.of_fills (h : Fills b s s') (hunfilled : (blockState s b).isFilled = false) :
    Evolves s s' where
  toGrows := h.toGrows
  filled := fun c hc => by
    have hne : c ≠ b := by grind
    exact ⟨(h.isFilled c).trans hc, h.other c hne⟩
  isSealed := fun c hc => (h.isSealed c).trans hc

structure Seals (s s' : State) : Prop extends Evolves s s' where
  ops : ∀ c, (s'.body.block c).ops = (s.body.block c).ops
  written : ∀ c, (blockState s' c).written = (blockState s c).written
  beforeThrow : ∀ c, (blockState s' c).beforeThrow = (blockState s c).beforeThrow
  isFilled : ∀ c, (blockState s' c).isFilled = (blockState s c).isFilled

theorem Seals.refl (s : State) : Seals s s :=
  ⟨Evolves.refl s, fun _ => rfl, fun _ => rfl, fun _ => rfl, fun _ => rfl⟩

theorem Seals.trans {s₁ s₂ s₃ : State} (h : Seals s₁ s₂) (h' : Seals s₂ s₃) : Seals s₁ s₃ :=
  ⟨h.toEvolves.trans h'.toEvolves, fun c => (h'.ops c).trans (h.ops c),
    fun c => (h'.written c).trans (h.written c), fun c =>
      (h'.beforeThrow c).trans (h.beforeThrow c),
    fun c => (h'.isFilled c).trans (h.isFilled c)⟩

theorem Seals.of_extends (h : Extends s s') : Seals s s' where
  toGrows := h.grows
  filled := fun c hc => ⟨(h.isFilled c).trans hc, h.ops c, h.written c, h.beforeThrow c⟩
  isSealed := fun c hc => (h.isSealed c).trans hc
  ops := h.ops
  written := h.written
  beforeThrow := h.beforeThrow
  isFilled := h.isFilled

/-! ## Sealing -/

def opened (s : State) (b : BlockId) : State :=
  { s with blocks := s.blocks.modify b fun st => { st with isSealed := true, openPhis := [] } }

theorem blockState_opened (s : State) (b c : BlockId) :
    blockState (opened s b) c =
      if b = c ∧ c < s.blocks.size then
        { blockState s c with isSealed := true, openPhis := [] }
      else blockState s c :=
  blockState_modify b c _ s.body

theorem seals_opened (s : State) (b : BlockId) : Seals s (opened s b) where
  size := by simp [opened]
  blockCount := rfl
  method := rfl
  preds := fun _ => rfl
  handlers := fun _ => rfl
  filled := fun c hc => by rw [blockState_opened]; split <;> exact ⟨hc, rfl, rfl, rfl⟩
  isSealed := fun c hc => by rw [blockState_opened]; split <;> simp_all
  atEntry := fun c => by rw [blockState_opened]; split <;> exact List.Subset.refl _
  ops := fun c => rfl
  written := fun c => by rw [blockState_opened]; split <;> rfl
  beforeThrow := fun c => by rw [blockState_opened]; split <;> rfl
  isFilled := fun c => by rw [blockState_opened]; split <;> rfl

/-- While the phis of a block are being closed, only those still to come lack operands. -/
structure Sealing (src : Source) (b : BlockId) (rest : Registers) (s : State) : Prop
    extends Inv src s where
  inside : b < src.layout.blocks.size
  sealed_self : (blockState s b).isSealed = true
  cached_rest : ∀ e ∈ rest, e ∈ (blockState s b).atEntry ∧ e.2 ∈ (s.body.block b).phiDests
  settled : ∀ c v, Unfinished s c v → (∃ reg, (reg, v) ∈ (blockState s c).openPhis) ∨
    (c = b ∧ v ∈ rest.map Prod.snd)

theorem sealing_opened (h : Coded src s) (hb : b < src.layout.blocks.size)
    (hfilled : ∀ p ∈ src.layout.preds b, (blockState s p).isFilled = true) :
    Sealing src b (blockState s b).openPhis (opened s b) := by
  have hseals := seals_opened s b
  have hsealed : (blockState (opened s b) b).isSealed = true := by
    rw [blockState_opened, if_pos ⟨rfl, by rw [h.size]; exact hb⟩]
  have hentry : ∀ c, (blockState (opened s b) c).atEntry = (blockState s c).atEntry := by
    intro c
    rw [blockState_opened]
    split <;> rfl
  have hkept : Kept s (opened s b) := {
    size := hseals.size
    blockCount := rfl
    phis := fun _ => rfl
    atEntry := hentry
    openPhis := fun c e he => by
      rw [blockState_opened] at he ⊢
      split at he
      · simp at he
      · grind
    filled := fun c hc => by
      obtain ⟨h₁, -, h₃, h₄⟩ := hseals.filled c hc
      exact ⟨h₁, h₃, h₄⟩ }
  have hinv : Inv src (opened s b) := by
    refine h.toInv.of_kept hkept ?_ ?_ h.defined_nodup h.defined_lt
    · intro c hc p hp
      rw [hseals.isFilled p]
      by_cases hbc : b = c
      · exact hfilled p (hbc ▸ hp)
      · rw [blockState_opened, if_neg (fun hc => hbc hc.1)] at hc
        exact h.filled c hc p hp
    · intro c hc
      rw [hseals.isFilled c] at hc
      obtain ⟨hlt, hor⟩ := h.readable c hc
      exact ⟨hlt, hor.imp_left (hseals.isSealed c)⟩
  refine { hinv with inside := hb, sealed_self := hsealed, cached_rest := ?_, settled := ?_ }
  · intro e he
    rw [hentry b]
    obtain ⟨hmem, hdest, -⟩ := h.openPhis b e he
    exact ⟨hmem, hdest⟩
  · intro c v hv
    obtain ⟨reg, hmem⟩ := h.settled c v hv
    by_cases hc : b = c
    · grind
    · left
      refine ⟨reg, ?_⟩
      rw [blockState_opened, if_neg (fun h => hc h.1)]
      exact hmem

theorem Sealing.close {e : Reg × Operand} {rest : Registers} {operands : List Operand} {s₁ : State}
    (h : Sealing src b (e :: rest) s)
    (hrun : ((src.layout.preds b).mapM fun p => readOverEdge src e.1 p b).run s =
      .ok (operands, s₁)) :
    Sealing src b rest (close s₁ b e.2 operands) ∧ Seals s (close s₁ b e.2 operands) := by
  obtain ⟨hinv, hlooked, hall⟩ :=
    atExit_of_mapM_readOver (fun h hb hread => readsEntry_of_run h hb hread) h.toInv h.sealed_self
      hrun
  obtain ⟨hcached, hdest⟩ := h.cached_rest e (by simp)
  have hmem : e ∈ (blockState s₁ b).atEntry := hlooked.atEntry b hcached
  have hclose := Extends.close s₁ b e.2 operands
  have hne : operands ≠ [] := by
    -- a block with an open phi has predecessors
    rintro rfl
    have htwo := h.phi_preds b fun hnil => by simp [Block.phiDests, hnil] at hdest
    rw [List.forall₂_nil_right_iff.1 hall] at htwo
    simp at htwo
  have hcount : b < s₁.body.blockCount := by rw [hinv.blockCount]; exact h.inside
  refine ⟨{ hinv.close hmem hall with
      inside := h.inside
      sealed_self := (hlooked.isSealed b).trans h.sealed_self
      cached_rest := ?_
      settled := ?_ }, Seals.of_extends (hlooked.toExtends.trans hclose)⟩
  · intro e' he'
    obtain ⟨hcached', hdest'⟩ := h.cached_rest e' (by simp [he'])
    rw [phiDests_close]
    exact ⟨hlooked.atEntry b hcached', hlooked.phiDests b hdest'⟩
  · intro c v hv
    obtain ⟨hv, hnot⟩ := unfinished_close hcount hne hv
    rcases hlooked.settled c v hv with hv | hv
    · rcases h.settled c v hv with ⟨reg, hopen⟩ | ⟨rfl, hrest⟩
      · exact .inl ⟨reg, hlooked.openPhis c hopen⟩
      · grind
    · exact .inl hv

/-- A block that is tried to be sealed is sealed then, or has a predecessor to wait for. -/
theorem coded_of_trySeal {u : Unit} (h : Coded src s) (hb : b < src.layout.blocks.size)
    (hrun : (trySeal src b).run s = .ok (u, s')) :
    Coded src s' ∧ Seals s s' ∧ ((blockState s' b).isSealed = true ∨
      ∃ p ∈ src.layout.preds b, (blockState s' p).isFilled = false) := by
  unfold trySeal at hrun
  rw [run_bind_eq_ok] at hrun
  obtain ⟨_, _, hget, hrun⟩ := hrun
  cases hget
  simp only at hrun
  split at hrun
  · rename_i hcond
    simp only [Bool.and_eq_true, List.all_eq_true] at hcond
    rw [run_bind_eq_ok] at hrun
    obtain ⟨_, _, hmodify, hrun⟩ := hrun
    cases hmodify
    rw [run_bind_eq_ok] at hrun
    obtain ⟨_, _, hrun, hend⟩ := hrun
    rw [run_pure_eq_ok] at hend
    obtain ⟨-, rfl⟩ := hend
    have hstart := sealing_opened h hb hcond.2
    have hloop : ∀ {e rest s₁ r s₂}, (Sealing src b (e :: rest) s₁ ∧ Seals s s₁) →
        ((do
          let operands ← (src.layout.preds b).mapM fun p => readOverEdge src e.1 p b
          closePhi b e.2 operands
          pure (ForInStep.yield PUnit.unit) : LiftM (ForInStep PUnit)).run s₁ = .ok (r, s₂)) →
        r = .yield ⟨⟩ ∧ Sealing src b rest s₂ ∧ Seals s s₂ := by
      rintro e rest s₁ r s₂ ⟨hsealing, hseals⟩ hstep
      simp only [run_bind_eq_ok, run_closePhi, run_pure_eq_ok, Except.ok.injEq,
        Prod.mk.injEq] at hstep
      obtain ⟨operands, s₃, hread, _, _, ⟨-, rfl⟩, rfl, rfl⟩ := hstep
      obtain ⟨hsealing', hseals'⟩ := hsealing.close hread
      exact ⟨rfl, hsealing', hseals.trans hseals'⟩
    obtain ⟨hsealing, hseals⟩ := run_forIn_eq_ok
      (fun rest s₁ => Sealing src b rest s₁ ∧ Seals s s₁) hloop
      ⟨hstart, seals_opened s b⟩ hrun
    refine ⟨h.of_same hsealing.toInv hseals.preds hseals.handlers hseals.ops hseals.written
      hseals.atEntry ?_, hseals,
      .inl hsealing.sealed_self⟩
    intro c v hv
    exact (hsealing.settled c v hv).resolve_right (by simp)
  · rename_i hcond
    rw [run_pure_eq_ok] at hrun
    obtain ⟨-, rfl⟩ := hrun
    refine ⟨h, Seals.refl _, ?_⟩
    by_contra hnot
    simp only [not_or, Bool.not_eq_true, not_exists, not_and, Bool.not_eq_false] at hnot
    refine hcond ?_
    simpa [hnot.1] using hnot.2

end BytecodeOpt.Ssa.Lift
