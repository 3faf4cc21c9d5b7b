import BytecodeOpt.Proofs.Fallible
import BytecodeOpt.Proofs.Graph.Dominators
import BytecodeOpt.Proofs.Ssa.WellFormed

/-!
# What the SSA check accepts

The check goes through blocks, definitions and uses in turn.  `Checked` says in one place what a
body is like that passes all of it.
-/

namespace BytecodeOpt.Ssa

open Fallible

namespace Body

variable {body : Body} {table table' : Array (Option DefSite)} {b : BlockId} {v : Operand}
  {count : Nat} {site : DefSite} {done entries : List (Operand × DefSite)}

theorem require_eq_ok {condition : Bool} {violation : Violation} :
    require condition violation = .ok () ↔ condition = true := by
  unfold require
  split <;> simp_all

/-! ## Blocks -/

theorem checkPlacement_eq_ok {op : Op} {i : Nat} :
    body.checkPlacement b op i = .ok () ↔
      (op.isTerminator = true → i + 1 = (body.block b).ops.length) ∧
      (op.isArgument = true → b = 0 ∧ ((body.block b).ops.take i).all Op.isArgument = true) ∧
      (op.isMoveException = true → i = 0 ∧ body.isHandlerEntry b = true) := by
  simp only [checkPlacement, andThen_eq_ok, require_eq_ok, Bool.or_eq_true,
    Bool.not_eq_true', Bool.and_eq_true, beq_iff_eq, ← Bool.not_eq_true, ← imp_iff_not_or]

theorem checkPreds_eq_ok {seen preds : List BlockId} :
    body.checkPreds b seen preds = .ok () ↔ preds.Nodup ∧ ∀ p ∈ preds, p ∉ seen ∧
      body.hasEdge p b = true := by
  induction preds generalizing seen with
  | nil => simp [checkPreds]
  | cons p rest ih =>
    rw [List.nodup_cons, List.forall_mem_cons]
    simp only [checkPreds, andThen_eq_ok, require_eq_ok, ih, List.mem_cons, not_or,
      Bool.not_eq_true', List.contains_eq_mem, decide_eq_false_iff_not]
    constructor
    · grind
    · grind

theorem hasEdge_iff {p b : BlockId} :
    body.hasEdge p b = true ↔ p < body.blockCount ∧ b ∈ (body.block p).successors := by
  simp [hasEdge]

structure CheckedBlock (body : Body) (b : BlockId) : Prop where
  reachable : body.graph.Reaches 0 b
  terminator : (body.block b).terminator?.isSome = true
  placed : ∀ (i : Nat) (op : Op), (body.block b).ops[i]? = some op →
    body.checkPlacement b op i = .ok ()
  throws_at_end : throwsAtEnd (body.block b) = true
  preds_nodup : (body.block b).preds.Nodup
  preds_edge : ∀ p ∈ (body.block b).preds, p < body.blockCount ∧ b ∈ (body.block p).successors
  successors : ∀ s ∈ (body.block b).successors, s < body.blockCount ∧ b ∈ (body.block s).preds
  arity : ∀ phi ∈ (body.block b).phis, phi.operands.length = (body.block b).preds.length

theorem checkBlock_eq_ok (hb : b < body.blockCount) :
    body.checkBlock body.dominators b = .ok () ↔ body.CheckedBlock b := by
  have hops : ((body.block b).ops.zipIdx.forM fun e => body.checkPlacement b e.1 e.2) = .ok () ↔
      ∀ (i : Nat) (op : Op), (body.block b).ops[i]? = some op →
        body.checkPlacement b op i = .ok () := by
    rw [forM_eq_ok]
    exact ⟨fun h i op hop => h (op, i) (List.mem_zipIdx_iff_getElem?.2 hop),
      fun h e he => h e.2 e.1 (List.mem_zipIdx_iff_getElem?.1 he)⟩
  have hreach : body.dominators.isReachable b = true ↔ body.graph.Reaches 0 b :=
    Dominators.isReachable_ofGraph (by rw [size_graph]; exact Nat.zero_lt_of_lt hb)
  simp only [checkBlock, andThen_eq_ok, require_eq_ok, checkPreds_eq_ok, hreach,
    hasEdge_iff, List.not_mem_nil, not_false_eq_true, true_and, forM_eq_ok,
      checkSuccessor, checkArity,
    Bool.and_eq_true, decide_eq_true_eq, beq_iff_eq, List.contains_iff_mem]
  constructor
  · rintro ⟨hb, hterm, hplaced, hthrows, ⟨hnodup, hedge⟩, hsucc, harity⟩
    exact ⟨hb, hterm, hops.1 (forM_eq_ok.2 hplaced), hthrows, hnodup, hedge, hsucc, harity⟩
  · intro h
    exact ⟨h.reachable, h.terminator, forM_eq_ok.1 (hops.2 h.placed), h.throws_at_end,
      ⟨h.preds_nodup, h.preds_edge⟩, h.successors, h.arity⟩

/-! ## Definitions -/

def DefinedAt (body : Body) (v : Operand) : DefSite → Prop
  | .phi b => b < body.blockCount ∧ v ∈ (body.block b).phiDests
  | .op b i => b < body.blockCount ∧ ∃ op, (body.block b).ops[i]? = some op ∧ op.dest? = some v

theorem mem_allDefinitions : (v, site) ∈ body.allDefinitions ↔ body.DefinedAt v site := by
  simp only [allDefinitions, List.mem_flatMap, mem_blockIds, blockDefinitions, List.mem_append,
    List.mem_map, List.mem_filterMap, Prod.exists, List.mem_zipIdx_iff_getElem?, Prod.mk.injEq,
    Option.map_eq_some_iff]
  cases site with
  | phi b =>
    simp only [DefinedAt, Block.phiDests, List.mem_map, DefSite.phi.injEq, reduceCtorEq, and_false,
      exists_false, or_false]
    constructor
    · simp
    · simp
  | op b i =>
    simp only [DefinedAt, DefSite.op.injEq, reduceCtorEq, and_false, exists_false, false_or]
    constructor
    · simp
    · simp

theorem map_fst_allDefinitions (body : Body) :
    body.allDefinitions.map Prod.fst = body.definedValues := by
  simp only [allDefinitions, definedValues, List.map_flatMap]
  refine List.flatMap_congr fun b _ => ?_
  simp only [blockDefinitions, Block.definedValues, Block.phiDests, Block.opDests, List.map_append,
    List.map_map, List.map_filterMap]
  congr 1
  -- the index of an operation does not matter for what it defines
  have hfst : (body.block b).ops.zipIdx.map Prod.fst = (body.block b).ops := by simp
  conv_rhs => rw [← hfst, List.filterMap_map]
  refine List.filterMap_congr fun e _ => ?_
  simp [Function.comp_def]

theorem mem_definedValues_of_definedAt (h : body.DefinedAt v site) : v ∈ body.definedValues := by
  rw [← map_fst_allDefinitions]
  exact List.mem_map_of_mem (mem_allDefinitions.2 h)

def Records (count : Nat) (done : List (Operand × DefSite)) (table : Array (Option DefSite)) :
    Prop :=
  table.size = count ∧ ∀ v site, table.getD v none = some site ↔ (v, site) ∈ done

theorem define_eq_ok :
    define table v site = .ok table' ↔
      v < table.size ∧ table.getD v none = none ∧ table' = table.setIfInBounds v (some site) := by
  unfold define
  rw [Array.getD_eq_getD_getElem?]
  by_cases hv : v < table.size
  · cases hentry : table[v] <;> simp [hv, hentry, eq_comm]
  · simp [hv]

theorem Records.define (h : Records count done table) (hdefine : define table v site = .ok table') :
    v < count ∧ v ∉ done.map Prod.fst ∧ Records count (done ++ [(v, site)]) table' := by
  obtain ⟨hlt, hnone, rfl⟩ := define_eq_ok.1 hdefine
  have hnew : v ∉ done.map Prod.fst := by
    intro hmem
    obtain ⟨e, he, rfl⟩ := List.mem_map.1 hmem
    rw [(h.2 e.1 e.2).2 he] at hnone
    cases hnone
  refine ⟨h.1 ▸ hlt, hnew, by simpa using h.1, fun w other => ?_⟩
  rw [Table.getD_setIfInBounds, List.mem_append, List.mem_singleton, Prod.mk.injEq]
  by_cases hw : v = w
  · grind
  · rw [if_neg fun hc => hw hc.1, h.2]
    simp [Ne.symm hw]

theorem exists_define (h : Records count done table) (hv : v < count)
    (hnew : v ∉ done.map Prod.fst) (site : DefSite) :
    ∃ table', define table v site = .ok table' := by
  refine ⟨_, define_eq_ok.2 ⟨h.1.symm ▸ hv, ?_, rfl⟩⟩
  cases hentry : table.getD v none with
  | none => rfl
  | some other => exact absurd (List.mem_map_of_mem ((h.2 v other).1 hentry)) hnew

def recordAll (entries : List (Operand × DefSite)) (table : Array (Option DefSite)) :
    Except Violation (Array (Option DefSite)) :=
  entries.foldlM (fun table e => Body.define table e.1 e.2) table

theorem recordAll_cons {e : Operand × DefSite} :
    recordAll (e :: entries) table = (Body.define table e.1 e.2 >>= recordAll entries) := by
  rw [recordAll, List.foldlM_cons]
  rfl

theorem Records.recordAll (h : Records count done table) (hnodup : (done.map Prod.fst).Nodup)
    (hrecord : recordAll entries table = .ok table') :
    ((done ++ entries).map Prod.fst).Nodup ∧ (∀ e ∈ entries, e.1 < count) ∧
      Records count (done ++ entries) table' := by
  induction entries generalizing done table with
  | nil =>
    obtain rfl : table = table' := Except.ok.inj hrecord
    simpa using ⟨hnodup, h⟩
  | cons e entries ih =>
    rw [recordAll_cons] at hrecord
    obtain ⟨next, hdefine, hrest⟩ := bind_eq_ok.1 hrecord
    obtain ⟨hlt, hnew, hnext⟩ := h.define hdefine
    have hnodup' : ((done ++ [e]).map Prod.fst).Nodup := by grind
    obtain ⟨hall, hbound, hrecords⟩ := ih hnext hnodup' hrest
    rw [List.append_assoc, List.singleton_append] at hall hrecords
    exact ⟨hall, List.forall_mem_cons.2 ⟨hlt, hbound⟩, hrecords⟩

theorem exists_recordAll (h : Records count done table)
    (hnodup : ((done ++ entries).map Prod.fst).Nodup) (hbound : ∀ e ∈ entries, e.1 < count) :
    ∃ table', recordAll entries table = .ok table' := by
  induction entries generalizing done table with
  | nil => exact ⟨table, rfl⟩
  | cons e entries ih =>
    rw [recordAll_cons]
    have hnew : e.1 ∉ done.map Prod.fst := by grind
    obtain ⟨next, hnext⟩ := exists_define h (hbound e (by simp)) hnew e.2
    obtain ⟨table', htable'⟩ := ih (h.define hnext).2.2 (by simpa using hnodup)
      fun e' he' => hbound e' (List.mem_cons_of_mem _ he')
    exact ⟨table', bind_eq_ok.2 ⟨next, hnext, htable'⟩⟩

theorem records_nil (count : Nat) : Records count [] (Array.replicate count none) := by
  refine ⟨by simp, fun v site => ?_⟩
  rw [Table.getD_replicate]
  simp

/-! ## Uses -/

def Dominated (body : Body) (b : BlockId) (i : Nat) (v : Operand) : Prop :=
  ∃ site, body.DefinedAt v site ∧ isDefinedBefore body.dominators b i site = true

section

variable (htable : ∀ v site, table.getD v none = some site ↔ body.DefinedAt v site)
include htable

theorem checkUse_eq_ok {i : Nat} :
    checkUse table body.dominators b i v = .ok () ↔ body.Dominated b i v := by
  unfold checkUse
  cases hentry : table.getD v none with
  | none =>
    simp only [reduceCtorEq, false_iff]
    rintro ⟨site, hsite, -⟩
    rw [(htable v site).2 hsite] at hentry
    cases hentry
  | some site =>
    have hsite := (htable v site).1 hentry
    rw [require_eq_ok]
    constructor
    · exact fun h => ⟨site, hsite, h⟩
    · rintro ⟨other, hother, h⟩
      obtain rfl : site = other := Option.some.inj (hentry.symm.trans ((htable v other).2 hother))
      exact h

theorem checkBlockUses_eq_ok :
    body.checkBlockUses table body.dominators b = .ok () ↔
      (∀ phi ∈ (body.block b).phis, ∀ e ∈ phi.operands.zip (body.block b).preds,
        body.Dominated e.2 (body.exitPosition e.2 b) e.1) ∧
      ∀ (i : Nat) (op : Op), (body.block b).ops[i]? = some op → ∀ v ∈ op.uses,
        body.Dominated b i v := by
  simp only [checkBlockUses, andThen_eq_ok, forM_eq_ok, checkPhiUses, checkUse_eq_ok htable]
  refine and_congr Iff.rfl ⟨fun h i op hop => ?_, fun h e he => ?_⟩
  · exact h (op, i) (List.mem_zipIdx_iff_getElem?.2 hop)
  · exact h e.2 e.1 (List.mem_zipIdx_iff_getElem?.1 he)

end

/-! ## All together -/

structure Checked (body : Body) : Prop where
  entry_preds : (body.block 0).preds = []
  block : ∀ b < body.blockCount, body.CheckedBlock b
  defined_nodup : body.definedValues.Nodup
  defined_lt : ∀ v ∈ body.definedValues, v < body.valueCount
  phi : ∀ b < body.blockCount, ∀ phi ∈ (body.block b).phis,
    ∀ e ∈ phi.operands.zip (body.block b).preds, body.Dominated e.2 (body.exitPosition e.2 b) e.1
  use : ∀ b < body.blockCount, ∀ (i : Nat) (op : Op), (body.block b).ops[i]? = some op →
    ∀ v ∈ op.uses, body.Dominated b i v

theorem Checked.exists_table (h : body.Checked) :
    ∃ table, recordAll body.allDefinitions (Array.replicate body.valueCount none) = .ok table ∧
      ∀ v site, table.getD v none = some site ↔ body.DefinedAt v site := by
  have hstart := records_nil body.valueCount
  obtain ⟨table, htable⟩ := exists_recordAll hstart
    (by rw [List.nil_append, map_fst_allDefinitions]; exact h.defined_nodup)
    fun e he => h.defined_lt e.1 (map_fst_allDefinitions body ▸ List.mem_map_of_mem he)
  obtain ⟨-, -, hrecords⟩ := hstart.recordAll (by simp) htable
  exact ⟨table, htable, fun v site => (hrecords.2 v site).trans mem_allDefinitions⟩

theorem check_eq_ok_iff : body.check = .ok () ↔ body.Checked := by
  have hstart := records_nil body.valueCount
  have hcheck : body.check = .ok () ↔ (body.block 0).preds = [] ∧
      (∀ b ∈ body.blockIds, body.checkBlock body.dominators b = .ok ()) ∧
      ∃ table, recordAll body.allDefinitions (Array.replicate body.valueCount none) = .ok table ∧
        ∀ b ∈ body.blockIds, body.checkBlockUses table body.dominators b = .ok () := by
    simp only [check, andThen_eq_ok, require_eq_ok, List.isEmpty_iff, forM_eq_ok]
    refine and_congr Iff.rfl (and_congr Iff.rfl ?_)
    rw [bind_eq_ok]
    simp only [forM_eq_ok]
    rfl
  rw [hcheck]
  constructor
  · rintro ⟨hentry, hblocks, table, htable, huses⟩
    obtain ⟨hnodup, hbound, hrecords⟩ := hstart.recordAll (by simp) htable
    rw [List.nil_append, map_fst_allDefinitions] at hnodup
    have hsites : ∀ v site, table.getD v none = some site ↔ body.DefinedAt v site :=
      fun v site => (hrecords.2 v site).trans mem_allDefinitions
    have huses' := fun b hb => (checkBlockUses_eq_ok hsites).1 (huses b (mem_blockIds.2 hb))
    refine ⟨hentry, fun b hb => (checkBlock_eq_ok hb).1 (hblocks b (mem_blockIds.2 hb)), hnodup, ?_,
      fun b hb => (huses' b hb).1, fun b hb => (huses' b hb).2⟩
    intro v hv
    rw [← map_fst_allDefinitions] at hv
    obtain ⟨e, he, rfl⟩ := List.mem_map.1 hv
    exact hbound e he
  · intro h
    obtain ⟨table, htable, hsites⟩ := h.exists_table
    refine ⟨h.entry_preds, fun b hb => (checkBlock_eq_ok (mem_blockIds.1 hb)).2
      (h.block b (mem_blockIds.1 hb)), table, htable,
      fun b hb => (checkBlockUses_eq_ok hsites).2 ⟨?_, ?_⟩⟩
    · exact h.phi b (mem_blockIds.1 hb)
    · exact h.use b (mem_blockIds.1 hb)

theorem foldl_of_recordAll (h : recordAll entries table = .ok table') :
    entries.foldl (fun table e => table.setIfInBounds e.1 (some e.2)) table = table' := by
  induction entries generalizing table with
  | nil => exact Except.ok.inj h
  | cons e entries ih =>
    rw [recordAll_cons] at h
    obtain ⟨next, hdefine, hrest⟩ := bind_eq_ok.1 h
    obtain ⟨-, -, rfl⟩ := define_eq_ok.1 hdefine
    exact ih hrest

theorem Checked.getD_definitions (h : body.Checked) :
    body.definitions.getD v none = some site ↔ body.DefinedAt v site := by
  obtain ⟨table, htable, hsites⟩ := h.exists_table
  rw [definitions, foldl_of_recordAll htable, hsites]

end Body

end BytecodeOpt.Ssa
