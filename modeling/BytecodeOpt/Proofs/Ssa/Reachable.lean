import BytecodeOpt.Proofs.Ssa.Execution

/-!
# Blocks that control can get to

An edit may cut blocks off before they are dropped.  `Sound` asks of a body what the check asks, but
only of the blocks that can be reached; once the others are gone the body passes the check.
-/

namespace BytecodeOpt

namespace Ssa

namespace Body

variable {body : Body} {b t : BlockId} {k : Nat} {v : Operand} {site other : DefSite}

abbrev Reached (body : Body) (b : BlockId) : Prop := body.graph.Reaches 0 b

theorem Reached.lt_blockCount (h : body.Reached b) : b < body.blockCount := by
  rw [← size_graph]
  exact h.lt_size

theorem DefinedAt.lt_blockCount (h : body.DefinedAt v site) : site.block < body.blockCount := by
  cases site <;> exact h.1

theorem reached_of_isDefinedBefore (hb : body.Reached b)
    (h : isDefinedBefore body.dominators b k site = true) :
    body.Reached site.block := by
  cases site with
  | phi d => exact Dominators.reaches_of_dominates hb h
  | op d j =>
    simp only [isDefinedBefore] at h
    split at h
    next heq => exact heq ▸ hb
    next => exact Dominators.reaches_of_dominates hb h

/-! ## What is asked of the blocks that can be reached -/

structure Sound (body : Body) : Prop where
  entry_preds : (body.block 0).preds = []
  block : ∀ b, body.Reached b → body.CheckedBlock b
  phis_nodup : ∀ b, body.Reached b → (body.block b).phiDests.Nodup
  site_unique : ∀ v site other, body.DefinedAt v site → body.DefinedAt v other →
    body.Reached site.block →
    body.Reached other.block → site = other
  defined_lt : ∀ v site, body.DefinedAt v site → body.Reached site.block → v < body.valueCount
  phi : ∀ b, body.Reached b → ∀ phi ∈ (body.block b).phis,
    ∀ e ∈ phi.operands.zip (body.block b).preds,
    body.Reached e.2 → body.Dominated e.2 (body.exitPosition e.2 b) e.1
  use : ∀ b, body.Reached b → ∀ (i : Nat) (op : Op), (body.block b).ops[i]? = some op →
    ∀ v ∈ op.uses, body.Dominated b i v

theorem exists_definedAt (hb : b < body.blockCount) (h : v ∈ (body.block b).definedValues) :
    ∃ site, body.DefinedAt v site ∧ site.block = b := by
  rcases List.mem_append.1 h with hphi | hop
  · exact ⟨.phi b, ⟨hb, hphi⟩, rfl⟩
  · obtain ⟨op, hop, hdest⟩ := List.mem_filterMap.1 hop
    obtain ⟨i, hi⟩ := List.mem_iff_getElem?.1 hop
    exact ⟨.op b i, ⟨hb, op, hi, hdest⟩, rfl⟩

theorem Checked.sound (h : body.Checked) : body.Sound where
  entry_preds := h.entry_preds
  block := fun b hb => h.block b hb.lt_blockCount
  phis_nodup := fun _ hb => nodup_phiDests_block h.defined_nodup hb.lt_blockCount
  site_unique := fun _ _ _ hsite hother _ _ => h.site_unique hsite hother
  defined_lt := fun v _ hsite _ => h.defined_lt v (mem_definedValues_of_definedAt hsite)
  phi := fun b hb phi hphi e he _ => h.phi b hb.lt_blockCount phi hphi e he
  use := fun b hb => h.use b hb.lt_blockCount

theorem nodup_definedValues (hphis : ∀ b < body.blockCount, (body.block b).phiDests.Nodup)
    (hsites : ∀ v site other, body.DefinedAt v site → body.DefinedAt v other → site = other) :
    body.definedValues.Nodup := by
  refine List.nodup_flatMap.2 ⟨fun b hb => ?_, List.nodup_range.imp_of_mem fun hb hc hne v hvb
    hvc => hne ?_⟩
  · rw [mem_blockIds] at hb
    refine List.nodup_append.2 ⟨hphis b hb, ?_, ?_⟩
    · refine List.pairwise_filterMap.2 (List.pairwise_iff_getElem.2 fun i j hi hj hlt v
        hv w hw => ?_)
      rintro rfl
      have := hsites v (.op b i) (.op b j) ⟨hb, _, List.getElem?_eq_getElem hi, hv⟩
        ⟨hb, _, List.getElem?_eq_getElem hj, hw⟩
      simp only [DefSite.op.injEq, true_and] at this
      omega
    · rintro v hphi w hop rfl
      obtain ⟨op, hop, hdest⟩ := List.mem_filterMap.1 hop
      obtain ⟨i, hi⟩ := List.mem_iff_getElem?.1 hop
      cases hsites v (.phi b) (.op b i) ⟨hb, hphi⟩ ⟨hb, op, hi, hdest⟩
  · obtain ⟨site, hsite, rfl⟩ := exists_definedAt (mem_blockIds.1 hb) hvb
    obtain ⟨other, hother, rfl⟩ := exists_definedAt (mem_blockIds.1 hc) hvc
    rw [hsites v site other hsite hother]

namespace Sound

variable (h : body.Sound)
include h

theorem checked (hall : ∀ b < body.blockCount, body.Reached b) : body.Checked where
  entry_preds := h.entry_preds
  block := fun b hb => h.block b (hall b hb)
  defined_nodup := nodup_definedValues (fun b hb => h.phis_nodup b (hall b hb)) fun v site other
    hsite hother =>
    h.site_unique v site other hsite hother (hall _ hsite.lt_blockCount)
      (hall _ hother.lt_blockCount)
  defined_lt := fun v hv => by
    obtain ⟨b, hb, hv⟩ := mem_definedValues.1 hv
    obtain ⟨site, hsite, rfl⟩ := exists_definedAt hb hv
    exact h.defined_lt v site hsite (hall _ hb)
  phi := fun b hb phi hphi e he => by
    have hpred := ((h.block b (hall b hb)).preds_edge e.2 (List.of_mem_zip he).2).1
    exact h.phi b (hall b hb) phi hphi e he (hall e.2 hpred)
  use := fun b hb => h.use b (hall b hb)

theorem isDefinedBefore_of_dominated (hb : body.Reached b) (hv : body.Dominated b k v)
    (hsite : body.DefinedAt v site)
    (hreached : body.Reached site.block) : isDefinedBefore body.dominators b k site = true := by
  obtain ⟨other, hother, hbefore⟩ := hv
  rwa [h.site_unique v site other hsite hother hreached (reached_of_isDefinedBefore hb hbefore)]

theorem edge_of_leavesAt (hb : body.Reached b) (hleaves : body.LeavesAt b k t) :
    body.Reached t ∧ b ∈ (body.block t).preds := by
  have hmem := (h.block b hb).mem_successors_of_leavesAt hleaves
  obtain ⟨hlt, hpred⟩ := (h.block b hb).successors t hmem
  exact ⟨hb.snoc (by rwa [successors_graph]) (by rwa [size_graph]) trivial, hpred⟩

end Sound

/-! ## What was run on the way -/

/-- The operation at `j` in block `d` was run before control gets to `k` in block `b`. -/
def Precedes (body : Body) (d : BlockId) (j : Nat) (b : BlockId) (k : Nat) : Prop :=
  isDefinedBefore body.dominators b k (.op d j) = true

variable {d : BlockId} {j : Nat} {op : Op}

theorem precedes_iff :
    body.Precedes d j b k ↔ (d = b ∧ j < k) ∨ (d ≠ b ∧ body.dominators.dominates d b = true) := by
  rw [Precedes, isDefinedBefore]
  by_cases h : d = b <;> simp [h]

@[simp] theorem precedes_self : body.Precedes b j b k ↔ j < k := by
  simp [precedes_iff]

theorem Precedes.dominates (h : body.Precedes d j b k) : body.dominators.dominates d b = true := by
  rcases precedes_iff.1 h with ⟨rfl, -⟩ | ⟨-, hdom⟩
  · exact Dominators.dominates_self _ _
  · exact hdom

theorem Precedes.reached (h : body.Precedes d j b k) (hb : body.Reached b) : body.Reached d :=
  Dominators.reaches_of_dominates hb h.dominates

theorem Precedes.asymm (hb : body.Reached b) (h : body.Precedes d j b k) :
    ¬ body.Precedes b k d (j + 1) := by
  intro h'
  obtain rfl := Dominators.dominates_antisymm (h.reached hb) hb h.dominates h'.dominates
  rw [precedes_self] at h h'
  omega

theorem not_precedes_start (hzero : body.Reached 0) : ¬ body.Precedes d j 0 0 := by
  intro h
  rcases precedes_iff.1 h with ⟨-, hlt⟩ | ⟨hne, hdom⟩
  · exact absurd hlt (Nat.not_lt_zero j)
  · rw [Body.dominators, Dominators.not_dominates_entry hzero.lt_size hne] at hdom
    cases hdom

theorem precedes_succ : body.Precedes d j b (k + 1) ↔ (d = b ∧ j = k) ∨ body.Precedes d j b k := by
  rw [precedes_iff, precedes_iff]
  constructor
  · grind
  · grind

theorem dominated_of_op (hop : (body.block d).ops[j]? = some op) (hv : op.dest? = some v) :
    body.Dominated d (j + 1) v :=
  ⟨.op d j, ⟨lt_blockCount_of_getElem? hop, op, hop, hv⟩, precedes_self.2 (Nat.lt_succ_self j)⟩

/-- What cannot throw has been run where control leaves the block, or one that it dominates. -/
theorem Sound.precedes_of_leavesAt (hs : body.Sound) (hb : body.Reached b)
    (hleaves : body.LeavesAt b k t)
    (hdom : body.dominators.dominates d b = true) (hop : (body.block d).ops[j]? = some op)
    (hdest : op.dest? = some v) (hthrow : op.canThrow = false) : body.Precedes d j b k := by
  by_cases hdb : d = b
  · subst hdb
    rcases (hs.block d hb).dest_lt_of_leavesAt hleaves hop hdest with hlt | ⟨-, hthrows, -⟩
    · exact precedes_self.2 hlt
    · cases hthrow.symm.trans hthrows
  · exact precedes_iff.2 (.inr ⟨hdb, hdom⟩)

/-- A property of what the operation at a place has to do with the values that are defined there.
Nothing is asked of operations that can throw. -/
structure Lasting {V : Type} (body : Body) (P : BlockId → Nat → (Operand → V) → Prop) : Prop where
  congr : ∀ {d j s s'}, body.Reached d → (∀ v, body.Dominated d (j + 1) v → s v = s' v) →
    P d j s → P d j s'
  quiet : ∀ {d j s}, (∀ op v, (body.block d).ops[j]? = some op → op.dest? = some v →
    op.canThrow = true) → P d j s

/-- The property holds of all operations that were run on the way to a place. -/
def Settled {V : Type} (body : Body) (P : BlockId → Nat → (Operand → V) → Prop) (b : BlockId)
    (k : Nat) (s : Operand → V) :
    Prop :=
  ∀ d j, body.Precedes d j b k → P d j s

section

variable {V : Type} {P : BlockId → Nat → (Operand → V) → Prop} {s s' : Operand → V}

theorem settled_start (hzero : body.Reached 0) :
    body.Settled P 0 0 s := fun _ _ h => absurd h (not_precedes_start hzero)

variable (hs : body.Sound) (hP : body.Lasting P) (hb : body.Reached b) (h : body.Settled P b k s)
include hs hP hb h

theorem Settled.next (hop : (body.block b).ops[k]? = some op) (hhere : P b k s')
    (hsame : ∀ v, op.dest? ≠ some v → s v = s' v) : body.Settled P b (k + 1) s' := by
  intro d j hbefore
  rcases precedes_succ.1 hbefore with ⟨rfl, rfl⟩ | hbefore
  · exact hhere
  refine hP.congr (hbefore.reached hb) (fun v hv => hsame v fun hdest => ?_) (h d j hbefore)
  -- the value is defined here, not before
  exact hbefore.asymm hb (hs.isDefinedBefore_of_dominated (hbefore.reached hb) hv ⟨hb.lt_blockCount,
    op, hop, hdest⟩ hb)

theorem Settled.enter (hleaves : body.LeavesAt b k t) :
    body.Settled P t 0 fun v => s (body.picks b t v) := by
  intro d j hbefore
  obtain ⟨ht, hpred⟩ := hs.edge_of_leavesAt hb hleaves
  obtain ⟨hne, hdom⟩ := (precedes_iff.1 hbefore).resolve_left (by simp)
  by_cases hquiet : ∀ op v, (body.block d).ops[j]? = some op → op.dest? = some v →
    op.canThrow = true
  · exact hP.quiet hquiet
  simp only [not_forall, Bool.not_eq_true] at hquiet
  obtain ⟨op, v, hop, hdest, hthrow⟩ := hquiet
  have hdom' := Dominators.dominates_pred hb
    (by rw [successors_graph]; exact ((hs.block t ht).preds_edge b hpred).2) ht.lt_size
    hdom hne
  have hbefore' := hs.precedes_of_leavesAt hb hleaves hdom' hop hdest hthrow
  have hd := hbefore'.reached hb
  refine hP.congr hd (fun x hx => ?_) (h d j hbefore')
  -- a phi of the next block is not defined before it
  rw [picks_of_not_phi fun hphi => ?_]
  have hsite : body.DefinedAt x (.phi t) := ⟨ht.lt_blockCount, hphi⟩
  exact hne (Dominators.dominates_antisymm hd ht hdom
    (hs.isDefinedBefore_of_dominated hd hx hsite ht))

end

end Body

end Ssa

end BytecodeOpt
