import BytecodeOpt.Proofs.Ssa.Check

/-!
# Reads and definitions along a path

Control runs through a block and leaves it at its terminator, or at an operation that throws, before
that operation has defined its result.  In a body that passes the check, everything read has been
defined on the way, with one exception: the check asks whether the block of the definition
dominates, and a block dominates its handlers although its last result does not get there.
-/

namespace BytecodeOpt.Ssa

variable {v : Operand}

def Block.incoming? (b : Block) (pred : BlockId) (phi : Phi) : Option Operand :=
  (b.predIndex? pred).bind (phi.operands[·]?)

theorem Block.mem_zip_of_incoming? {b : Block} {pred : BlockId} {phi : Phi}
    (h : b.incoming? pred phi = some v) :
    (v, pred) ∈ phi.operands.zip b.preds := by
  obtain ⟨k, hk, hv⟩ := Option.bind_eq_some_iff.1 h
  obtain ⟨hlt, heq, -⟩ := List.findIdx?_eq_some_iff_getElem.1 hk
  refine List.mem_iff_getElem?.2 ⟨k, List.getElem?_zip_eq_some.2 ⟨hv, ?_⟩⟩
  rw [List.getElem?_eq_getElem hlt, beq_iff_eq.1 heq]

theorem Block.incoming?_eq_some_iff {b : Block} {p : BlockId} {phi : Phi} (hnodup : b.preds.Nodup) :
    b.incoming? p phi = some v ↔ (v, p) ∈ phi.operands.zip b.preds := by
  refine ⟨mem_zip_of_incoming?, fun hmem => ?_⟩
  obtain ⟨i, hi⟩ := List.mem_iff_getElem?.1 hmem
  obtain ⟨hv, hp⟩ := List.getElem?_zip_eq_some.1 hi
  obtain ⟨hlt, rfl⟩ := List.getElem?_eq_some_iff.1 hp
  have hindex : b.predIndex? b.preds[i] = some i := by
    rw [predIndex?, List.findIdx?_eq_some_iff_getElem]
    refine ⟨hlt, by simp, fun j hj => ?_⟩
    have hne := List.pairwise_iff_getElem.1 hnodup j i (by omega) hlt hj
    simpa using hne
  rw [incoming?, hindex, Option.bind_some, hv]

namespace Body

variable {body : Body} {i : Nat} {b t : BlockId} {defined : List Operand} {op : Op}

/-! ## Paths -/

def LeavesAt (body : Body) (b : BlockId) (i : Nat) (t : BlockId) : Prop :=
  ∃ op, (body.block b).ops[i]? = some op ∧
    ((op.isTerminator = true ∧ t ∈ op.targets) ∨
      (op.canThrow = true ∧ t ∈ (body.block b).handlerTargets))

/-! ## What the check says about a place -/

theorem LeavesAt.lt_blockCount (h : body.LeavesAt b i t) : b < body.blockCount := by
  obtain ⟨op, hop, -⟩ := h
  exact lt_blockCount_of_getElem? hop

theorem length_le_of_throwsAtEnd {b : Block} (h : throwsAtEnd b = true)
    (hhandlers : b.handlers ≠ [])
    (hop : b.ops[i]? = some op) (hthrows : op.canThrow = true) : b.ops.length ≤ i + 2 := by
  have hindex := Block.throwingIndex?_of_throwsAtEnd h hhandlers hop hthrows
  have hempty : b.handlers.isEmpty = false := by simpa using hhandlers
  have hend := h
  simp only [throwsAtEnd, hempty, Bool.false_or] at hend
  split at hend
  next hnone => grind
  next j hj =>
    obtain ⟨hlt, hthrows', -⟩ := List.findIdx?_eq_some_iff_getElem.1 hj
    have hindex' := Block.throwingIndex?_of_throwsAtEnd h hhandlers
      (List.getElem?_eq_getElem hlt) hthrows'
    obtain rfl : i = j := Option.some.inj (hindex.symm.trans hindex')
    simp only [Bool.and_eq_true, Bool.or_eq_true, beq_iff_eq] at hend
    omega

namespace CheckedBlock

variable (h : body.CheckedBlock b)
include h

theorem terminator_at_end (hop : (body.block b).ops[i]? = some op)
    (hterm : op.isTerminator = true) :
    i + 1 = (body.block b).ops.length :=
  (checkPlacement_eq_ok.1 (h.placed i op hop)).1 hterm

theorem isTerminator_of_last (hop : (body.block b).ops[i]? = some op)
    (hlast : i + 1 = (body.block b).ops.length) : op.isTerminator = true := by
  obtain ⟨last, hterm⟩ := Option.isSome_iff_exists.1 h.terminator
  obtain ⟨hget, hisTerm⟩ := Option.filter_eq_some_iff.1 hterm
  rw [List.getLast?_eq_getElem?, ← hlast, Nat.add_sub_cancel, hop] at hget
  exact Option.some.inj hget ▸ hisTerm

theorem terminated : (body.block b).Terminated := by
  obtain ⟨last, hlast⟩ := Option.isSome_iff_exists.1 h.terminator
  obtain ⟨hget, hterm⟩ := Option.filter_eq_some_iff.1 hlast
  obtain ⟨init, hinit⟩ := List.getLast?_eq_some_iff.1 hget
  refine ⟨init, last, hinit, hterm, fun op hop => ?_⟩
  obtain ⟨i, hi⟩ := List.mem_iff_getElem?.1 hop
  have hlt := (List.getElem?_eq_some_iff.1 hi).1
  by_contra hnot
  have hop : (body.block b).ops[i]? = some op := by rw [hinit, List.getElem?_append_left hlt, hi]
  have hend := h.terminator_at_end hop (by simpa using hnot)
  simp only [hinit, List.length_append, List.length_singleton] at hend
  omega

theorem ops_length_pos : 0 < (body.block b).ops.length := by
  obtain ⟨init, last, hops, -⟩ := h.terminated
  simp [hops]

theorem mem_successors_of_leavesAt (hleaves : body.LeavesAt b i t) :
    t ∈ (body.block b).successors := by
  obtain ⟨op, hop, ⟨hterm, ht⟩ | ⟨-, ht⟩⟩ := hleaves
  · have hlast : (body.block b).terminator? = some op := by
      rw [Block.terminator?, List.getLast?_eq_getElem?, ← h.terminator_at_end hop hterm,
        Nat.add_sub_cancel, hop, Option.filter_some, if_pos hterm]
    simp [Block.successors, Block.normalSuccessors, hlast, Op.successors, ht]
  · simp [Block.successors, ht]

theorem dest_lt_of_leavesAt {i j : Nat} (hleaves : body.LeavesAt b i t)
    (hop : (body.block b).ops[j]? = some op) (hv : op.dest? = some v) :
    j < i ∨ (j = i ∧ op.canThrow = true ∧ t ∈ (body.block b).handlerTargets) := by
  have hnot : op.isTerminator = false := by cases op <;> simp_all [Op.dest?, Op.isTerminator]
  have hj : j < (body.block b).ops.length := (List.getElem?_eq_some_iff.1 hop).1
  have hjlast : j + 1 ≠ (body.block b).ops.length := by
    intro hlast
    rw [h.isTerminator_of_last hop hlast] at hnot
    cases hnot
  obtain ⟨op', hop', ⟨hterm, -⟩ | ⟨hthrows, ht⟩⟩ := hleaves
  · have := h.terminator_at_end hop' hterm
    exact .inl (by omega)
  · have hhandlers : (body.block b).handlers ≠ [] := by
      rintro hnil
      simp [Block.handlerTargets, hnil] at ht
    have hend := length_le_of_throwsAtEnd h.throws_at_end hhandlers hop' hthrows
    by_cases hji : j = i
    · grind
    · exact .inl (by omega)

end CheckedBlock

namespace Checked

variable (h : body.Checked)
include h

theorem site_unique {site other : DefSite} (hsite : body.DefinedAt v site)
    (hother : body.DefinedAt v other) :
    site = other := by
  have hnodup := h.defined_nodup
  rw [← map_fst_allDefinitions] at hnodup
  have hinj := List.inj_on_of_nodup_map hnodup (mem_allDefinitions.2 hsite)
    (mem_allDefinitions.2 hother) rfl
  exact (Prod.mk.inj hinj).2

theorem isTerminator_of_last {b : BlockId} (hop : (body.block b).ops[i]? = some op)
    (hlast : i + 1 = (body.block b).ops.length) : op.isTerminator = true :=
  (h.block b (lt_blockCount_of_getElem? hop)).isTerminator_of_last hop hlast

theorem mem_successors_of_leavesAt (hleaves : body.LeavesAt b i t) :
    t ∈ (body.block b).successors :=
  (h.block b hleaves.lt_blockCount).mem_successors_of_leavesAt hleaves

theorem dest_lt_of_leavesAt {i j : Nat} (hleaves : body.LeavesAt b i t)
    (hop : (body.block b).ops[j]? = some op) (hv : op.dest? = some v) :
    j < i ∨ (j = i ∧ op.canThrow = true ∧ t ∈ (body.block b).handlerTargets) :=
  (h.block b hleaves.lt_blockCount).dest_lt_of_leavesAt hleaves hop hv

/-! ## Everything read is defined, or lost -/

/-- A definition before a place was before the place that control came from, or was just missed. -/
theorem dominated_of_leavesAt (hleaves : body.LeavesAt b i t) {site : DefSite}
    (hsite : body.DefinedAt v site)
    (hbefore : isDefinedBefore body.dominators t 0 site = true) (hne : site.block ≠ t) :
    body.Dominated b i v ∨
      (site = .op b i ∧ (∃ op, (body.block b).ops[i]? = some op ∧ op.canThrow = true ∧
        op.dest? = some v) ∧ t ∈ (body.block b).handlerTargets) := by
  have hb := hleaves.lt_blockCount
  have hmem := h.mem_successors_of_leavesAt hleaves
  have hpred : ∀ d, d ≠ t → body.dominators.dominates d t = true →
      body.dominators.dominates d b = true := fun d hd hdom =>
    Dominators.dominates_pred (h.block b hb).reachable (by rwa [successors_graph])
      (by rw [size_graph]; exact ((h.block b hb).successors t hmem).1) hdom hd
  cases site with
  | phi d => exact .inl ⟨.phi d, hsite, hpred d hne hbefore⟩
  | op d j =>
    have hdom : body.dominators.dominates d t = true := by
      simpa [isDefinedBefore, show d ≠ t from hne] using hbefore
    by_cases hdb : d = b
    · subst hdb
      obtain ⟨-, op, hop, hv⟩ := hsite
      rcases h.dest_lt_of_leavesAt hleaves hop hv with hlt | ⟨rfl, hthrows, ht⟩
      · exact .inl ⟨.op d j, ⟨hb, op, hop, hv⟩, by simpa [isDefinedBefore] using hlt⟩
      · exact .inr ⟨rfl, ⟨op, hop, hthrows, hv⟩, ht⟩
    · exact .inl ⟨.op d j, hsite, by simpa [isDefinedBefore, hdb] using hpred d hne hdom⟩

/-! ## What is lost can be read -/

theorem not_mem_phiDests_of_site {d : BlockId} {k : Nat} (hsite : body.DefinedAt v (.op d k))
    (b : BlockId) :
    v ∉ (body.block b).phiDests := by
  intro hmem
  obtain ⟨phi, hphi, -⟩ := List.mem_map.1 hmem
  have hother : body.DefinedAt v (.phi b) := ⟨lt_blockCount_of_mem_phis hphi, hmem⟩
  cases h.site_unique hsite hother

end Checked

/-! ## What is read is a value of the body -/

variable (h : body.Checked)
include h

theorem lt_valueCount_of_dominated {k : Nat} (hv : body.Dominated b k v) : v < body.valueCount := by
  obtain ⟨site, hsite, -⟩ := hv
  exact h.defined_lt v (mem_definedValues_of_definedAt hsite)

theorem lt_valueCount_of_uses (hop : op ∈ (body.block b).ops) (hv : v ∈ op.uses) :
    v < body.valueCount := by
  obtain ⟨i, hi⟩ := List.mem_iff_getElem?.1 hop
  exact lt_valueCount_of_dominated h (h.use b (lt_blockCount_of_getElem? hi) i op hi v hv)

theorem lt_valueCount_of_operands {phi : Phi} (hphi : phi ∈ (body.block b).phis)
    (hv : v ∈ phi.operands) : v < body.valueCount := by
  have hb := lt_blockCount_of_mem_phis hphi
  obtain ⟨i, hi⟩ := List.mem_iff_getElem?.1 hv
  have hlt : i < (body.block b).preds.length := by
    rw [← (h.block b hb).arity phi hphi]
    exact (List.getElem?_eq_some_iff.1 hi).1
  have hmem : (v, (body.block b).preds[i]) ∈ phi.operands.zip (body.block b).preds :=
    List.mem_iff_getElem?.2 ⟨i, List.getElem?_zip_eq_some.2 ⟨hi, List.getElem?_eq_getElem hlt⟩⟩
  exact lt_valueCount_of_dominated h (h.phi b hb phi hphi _ hmem)

end Body

end BytecodeOpt.Ssa
