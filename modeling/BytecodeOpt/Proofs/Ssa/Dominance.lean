import BytecodeOpt.Proofs.Ssa.Definedness
import BytecodeOpt.Proofs.Ssa.Liveness

/-!
# Scope and dominance

A value that is in scope has come over every edge on the way, so every path passes the block that
defines it.  A body whose reads are all in scope therefore passes the check.
-/

namespace BytecodeOpt.Ssa.Body

variable {body : Body} {exit : BlockId → BlockId → Nat} {inScope : BlockId → Operand → Prop}
  {b d : BlockId} {v : Operand}

section

variable (h : body.Regular)
include h

/-- A path that avoids the definition of a value does not bring it into scope. -/
theorem Regular.not_inScope_of_path (hs : body.Scoped exit inScope)
    (hd : d < body.blockCount) (hdef : v ∈ (body.block d).definedValues)
    (hpath : body.graph.Path (· ≠ d) 0 b) : ¬ inScope b v := by
  induction hpath with
  | refl _ _ => exact hs.entry v
  | @snoc p b hp hedge _ _ ih =>
    intro hv
    have hplt : p < body.blockCount := by simpa [size_graph] using hp.lt_size
    rw [successors_graph] at hedge
    rcases (hs.edge p hplt b hedge v hv).inScope_or_mem with hscope | hdef'
    · exact ih hscope
    · exact hp.target_allowed (eq_of_mem_definedValues h.defined_nodup hplt hd hdef' hdef)

theorem dominates_self (hb : b < body.blockCount) : body.dominators.dominates b b = true :=
  (Dominators.dominates_iff (h.reachable b hb)).2 fun hpath => hpath.target_allowed rfl

theorem Regular.dominated_of_available (hs : body.Scoped exit inScope)
    (hb : b < body.blockCount) {i : Nat} (hv : body.Available inScope b i v) :
    body.Dominated b i v := by
  rcases hv with hv | hv | hv
  · obtain ⟨d, hd, hdef⟩ := mem_definedValues.1 (h.mem_definedValues_of_inScope hs hb hv)
    have hne : d ≠ b := by
      rintro rfl
      exact h.not_inScope hs hb hdef hv
    have hdom : body.dominators.dominates d b = true :=
      (Dominators.dominates_iff (h.reachable b hb)).2
        fun hpath => h.not_inScope_of_path hs hd hdef hpath hv
    rcases List.mem_append.1 hdef with hphi | hop
    · exact ⟨.phi d, ⟨hd, hphi⟩, hdom⟩
    · obtain ⟨op, hop, hdest⟩ := List.mem_filterMap.1 hop
      obtain ⟨j, hj⟩ := List.mem_iff_getElem?.1 hop
      exact ⟨.op d j, ⟨hd, op, hj, hdest⟩, by simpa [isDefinedBefore, hne] using hdom⟩
  · exact ⟨.phi b, ⟨hb, hv⟩, dominates_self h hb⟩
  · obtain ⟨j, op, hj, hop, hdest⟩ := Block.mem_destsBefore.1 hv
    exact ⟨.op b j, ⟨hb, op, hop, hdest⟩, by simpa [isDefinedBefore] using hj⟩

theorem Regular.checkedBlock (hb : b < body.blockCount) : body.CheckedBlock b := by
  obtain ⟨before, last, hops, hlast, hbefore⟩ := h.terminated b hb
  constructor
  case reachable => exact h.reachable b hb
  case terminator => rw [Block.Terminated.terminator? hops hlast, Option.isSome_some]
  case placed =>
    intro i op hop
    refine checkPlacement_eq_ok.2 ⟨fun hterm => ?_, fun hargument => ?_, h.caught b hb i op hop⟩
    · grind
    · obtain ⟨rfl, hall⟩ := h.arguments b hb i op hop hargument
      refine ⟨rfl, List.all_eq_true.2 fun other hother => ?_⟩
      obtain ⟨j, hj⟩ := List.mem_iff_getElem?.1 hother
      rw [List.getElem?_take] at hj
      split at hj
      · grind
      · cases hj
  case throws_at_end => exact h.throws_at_end b hb
  case preds_nodup => exact h.preds_nodup b hb
  case preds_edge => exact fun p hp => (h.mem_preds b hb p).1 hp
  case successors =>
    intro s hs
    have hlt := h.successors_lt b hb s hs
    exact ⟨hlt, (h.mem_preds s hlt b).2 ⟨hb, hs⟩⟩
  case arity => exact h.arity b hb

theorem Regular.checked_of_scoped (hs : body.Scoped exit inScope)
    (hphis : ∀ b < body.blockCount, ∀ phi ∈ (body.block b).phis,
      ∀ e ∈ phi.operands.zip (body.block b).preds,
      body.Available inScope e.2 (body.exitPosition e.2 b) e.1) : body.Checked := by
  constructor
  case entry_preds => exact h.entry_preds
  case block => exact fun b hb => h.checkedBlock hb
  case defined_nodup => exact h.defined_nodup
  case defined_lt => exact h.defined_lt
  case phi =>
    intro b hb phi hphi e he
    have hpred := ((h.mem_preds b hb e.2).1 (List.of_mem_zip he).2).1
    exact h.dominated_of_available hs hpred (hphis b hb phi hphi e he)
  case use =>
    exact fun b hb i op hop v hv => h.dominated_of_available hs hb (hs.use b hb i op hop v hv)

/-- A body passes the check if everything read is in scope, even where an exception leaves a
block. -/
theorem Regular.checked (hstrict : body.Strict) : body.Checked := by
  obtain ⟨inScope, hs⟩ := hstrict
  exact h.checked_of_scoped hs hs.phi

end

/-- A value that is defined in another block, which dominates this one. -/
def ComesIn (body : Body) (b : BlockId) (v : Operand) : Prop :=
  ∃ site, body.DefinedAt v site ∧ site.block ≠ b ∧ body.dominators.dominates site.block b = true

theorem Dominated.available {i : Nat} (h : body.Dominated b i v) :
    body.Available body.ComesIn b i v := by
  obtain ⟨site, hsite, hbefore⟩ := h
  cases site with
  | phi d =>
    by_cases hdb : d = b
    · exact .inr (.inl (hdb ▸ hsite.2))
    · exact .inl ⟨.phi d, hsite, hdb, hbefore⟩
  | op d j =>
    by_cases hdb : d = b
    · subst hdb
      obtain ⟨-, op, hop, hdest⟩ := hsite
      exact .inr
        (.inr (Block.mem_destsBefore.2 ⟨j, op, by
          simpa [isDefinedBefore] using hbefore, hop, hdest⟩))
    · exact .inl ⟨.op d j, hsite, hdb, by simpa [isDefinedBefore, hdb, DefSite.block] using hbefore⟩

/-- In a body that passes the check everything read is in scope: a value is where its definition
dominates. -/
theorem Checked.scoped_comesIn (h : body.Checked) (hentry : 0 < body.blockCount) :
    body.Scoped body.atEnd body.ComesIn := by
  refine ⟨?_, ?_, fun b hb i op hop v hv => (h.use b hb i op hop v hv).available, ?_⟩
  · rintro v ⟨site, -, hne, hdom⟩
    rw [dominators, Dominators.not_dominates_entry (by rwa [size_graph]) hne] at hdom
    cases hdom
  · -- what dominates a block dominates those it is entered from
    rintro p hp t ht v ⟨site, hsite, hne, hdom⟩
    refine Dominated.available ⟨site, hsite, ?_⟩
    have hdom' := Dominators.dominates_pred (h.block p hp).reachable (by rwa [successors_graph])
      (by rw [size_graph]; exact ((h.block p hp).successors t ht).1) hdom hne
    cases site with
    | phi d => exact hdom'
    | op d j =>
      simp only [isDefinedBefore]
      split
      · rename_i hdp
        obtain ⟨-, op, hop, -⟩ := hsite
        have hdp : d = p := hdp
        exact decide_eq_true (hdp ▸ (List.getElem?_eq_some_iff.1 hop).1)
      · exact hdom'
  · exact fun b hb phi hphi e he => (h.phi b hb phi hphi e he).available.mono
      (exitPosition_le_atEnd body e.2 b)

theorem regular_of_checkedBlock (hentry : 0 < body.blockCount) (hpreds : (body.block 0).preds = [])
    (hblock : ∀ b < body.blockCount, body.CheckedBlock b) (hnodup : body.definedValues.Nodup)
    (hlt : ∀ v ∈ body.definedValues, v < body.valueCount) (hs : body.Scoped body.atEnd inScope) :
    body.Regular := by
  constructor
  case nonempty => exact hentry
  case entry_preds => exact hpreds
  case terminated => exact fun b hb => (hblock b hb).terminated
  case successors_lt => exact fun b hb s hs => ((hblock b hb).successors s hs).1
  case preds_nodup => exact fun b hb => (hblock b hb).preds_nodup
  case mem_preds =>
    exact fun b hb p =>
      ⟨(hblock b hb).preds_edge p, fun hp => ((hblock p hp.1).successors b hp.2).2⟩
  case reachable => exact fun b hb => (hblock b hb).reachable
  case arguments =>
    intro b hb i op hop hargument
    obtain ⟨hzero, hall⟩ := (checkPlacement_eq_ok.1 ((hblock b hb).placed i op hop)).2.1 hargument
    refine ⟨hzero, fun j hj => ?_⟩
    have hlt := (List.getElem?_eq_some_iff.1 hop).1
    rw [List.getElem?_eq_getElem (hj.trans hlt), Option.any_some]
    refine List.all_eq_true.1 hall _ (List.mem_iff_getElem?.2 ⟨j, ?_⟩)
    rw [List.getElem?_take, if_pos hj, List.getElem?_eq_getElem]
  case caught => exact fun b hb i op hop =>
    (checkPlacement_eq_ok.1 ((hblock b hb).placed i op hop)).2.2
  case throws_at_end => exact fun b hb => (hblock b hb).throws_at_end
  case arity => exact fun b hb => (hblock b hb).arity
  case defined_nodup => exact hnodup
  case defined_lt => exact hlt
  case in_scope => exact ⟨_, hs⟩

theorem Checked.regular (h : body.Checked) (hentry : 0 < body.blockCount) : body.Regular :=
  regular_of_checkedBlock hentry h.entry_preds h.block h.defined_nodup h.defined_lt
    (h.scoped_comesIn hentry)

end BytecodeOpt.Ssa.Body
