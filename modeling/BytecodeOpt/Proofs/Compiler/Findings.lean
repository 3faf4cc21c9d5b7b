import BytecodeOpt.Proofs.Compiler.Commits

/-!
# What is found out across methods

The sequences and the callers that commits leave behind.  Sequences are noted only while they are
looked for, and each shape that was noted is among the shapes to choose from.  A caller that waits
is noted once.
-/

namespace BytecodeOpt

namespace Pass

variable {ctx : Context}

theorem outlineCandidates_run (hdisabled : ctx.outline = .disabled) (pass : Pass) (s : State) :
    (pass.run ctx s).1.summary.outlineCandidates = s.summary.outlineCandidates := by
  cases pass with
  | fieldValues => rw [run]; split <;> rfl
  | switchMaps => rw [run]; split <;> rfl
  | inlining =>
    rw [run]
    split
    · rw [inline]
      split <;> rfl
    · rfl
  | constantFolding => rw [run]; split <;> rfl
  | lambdas => rw [run]; split <;> rfl
  | outlining => rw [run, outline, hdisabled]
  | argumentLog => rw [run]; split <;> rfl
  | _ => rfl

theorem outlineCandidates_runAll (hdisabled : ctx.outline = .disabled)
    (passes : List Pass) (s : State) :
    (runAll ctx passes s).1.summary.outlineCandidates = s.summary.outlineCandidates := by
  induction passes generalizing s with
  | nil => rfl
  | cons pass rest ih =>
    have hpass : (pass.runChecked ctx s).1.summary.outlineCandidates =
        s.summary.outlineCandidates :=
      outlineCandidates_run hdisabled pass s
    rw [runAll]
    split
    · grind
    · exact ih s

end Pass

theorem Compiler.outlineCandidates_of_process {c : Compiler} {p : Program} {stage : Stage}
    {id : MethodId} {j : Journal} {r : Processed} (hdisabled : stage.outline = .disabled)
    (h : ((c.process p stage id).run j).1 = .ok r) : r.summary.outlineCandidates = [] := by
  refine ensures_process (P := (·.summary.outlineCandidates = [])) rfl
    (fun method body r _ hsummary => ?_) j r h
  rw [hsummary]
  exact Pass.outlineCandidates_runAll hdisabled _ _

namespace Outline

namespace Census

variable {c : Census} {s : Shape} {m : MethodId} {shapes : List Shape}

/-- Every shape that was counted, or noted for a method, is among the shapes. -/
structure Complete (c : Census) : Prop where
  counted : ∀ s, c.count s ≠ 0 → s ∈ c.shapes
  methods : ∀ e ∈ c.methods, ∀ s ∈ e.2, s ∈ c.shapes

theorem subset_shapes_add (hs : s ∈ c.shapes) (s' : Shape) : s ∈ (c.add s').shapes := by
  simp only [add]
  split
  · exact Array.mem_push_of_mem _ hs
  · exact hs

theorem Complete.add (h : c.Complete) (s : Shape) : (c.add s).Complete ∧ s ∈ (c.add s).shapes := by
  have hmem : s ∈ (c.add s).shapes := by
    simp only [Census.add]
    split
    · exact Array.mem_push_self
    · rename_i hcount
      exact h.counted s hcount
  refine ⟨⟨fun s' hs' => ?_, fun e he s' hs' => subset_shapes_add (h.methods e he s' hs') s⟩, hmem⟩
  by_cases heq : s = s'
  · exact heq ▸ hmem
  · refine subset_shapes_add (h.counted s' ?_) s
    simpa only [Census.add, count, Std.HashMap.getD_insert, beq_iff_eq, heq, if_false] using hs'

theorem methods_foldl_add (c : Census) (shapes : List Shape) :
    (shapes.foldl Census.add c).methods = c.methods :=
  List.foldlRecOn (motive := fun c' : Census => c'.methods = _) shapes _ rfl fun _ h _ _ => h

theorem Complete.foldl (h : c.Complete) (shapes : List Shape) :
    (shapes.foldl Census.add c).Complete ∧
      ∀ s, s ∈ c.shapes ∨ s ∈ shapes → s ∈ (shapes.foldl Census.add c).shapes := by
  induction shapes generalizing c with
  | nil => exact ⟨h, fun s hs => hs.resolve_right List.not_mem_nil⟩
  | cons s shapes ih =>
    obtain ⟨hadd, hmem⟩ := h.add s
    obtain ⟨hcomplete, hshapes⟩ := ih hadd
    refine ⟨hcomplete, fun s' hs' => hshapes s' ?_⟩
    rcases hs' with hold | hnew
    · exact .inl (subset_shapes_add hold s)
    · grind

theorem Complete.record (h : c.Complete) (m : MethodId) (shapes : List Shape) :
    (c.record m shapes).Complete := by
  rw [Census.record]
  split
  · exact h
  · obtain ⟨hcomplete, hshapes⟩ := h.foldl shapes
    refine ⟨hcomplete.counted, fun e he s hs => ?_⟩
    rcases List.mem_append.1 he with hold | hnew
    · exact hcomplete.methods e hold s hs
    · grind

theorem methods_record (c : Census) (m : MethodId) (shapes : List Shape) :
    (c.record m shapes).methods.map Prod.fst =
      c.methods.map Prod.fst ++ if shapes.isEmpty then [] else [m] := by
  rw [record]
  split
  · rw [List.append_nil]
  · simp only [List.map_append, methods_foldl_add, List.map_cons, List.map_nil]

theorem complete_empty : ({} : Census).Complete where
  counted s hs := absurd (by simp [count]) hs
  methods e he := absurd he List.not_mem_nil

end Census

theorem Selection.reprocess_eq_nil {c : Census} (h : c.Complete) {p : Program} {o : OutlineOptions}
    (hempty : (ofCensus c p o).isEmpty = true) : (ofCensus c p o).reprocess = [] := by
  have hnone : c.shapes.toList.filter (isSelected c o) = [] := by
    simpa [ofCensus, isEmpty] using hempty
  refine List.map_eq_nil_iff.2 (List.filter_eq_nil_iff.2 fun e he hany => ?_)
  obtain ⟨s, hs, hselected⟩ := List.any_eq_true.1 hany
  exact List.filter_eq_nil_iff.1 hnone s (Array.mem_toList_iff.2 (h.methods e he s hs)) hselected

namespace Selection

theorem perm_supportClass (sel : Selection) :
    sel.supportClass.methods.Perm (sel.methods.map fun (shape, id) => supportMethod shape id) :=
  Class.methods_foldl_addMethod _ _

theorem type_supportClass (sel : Selection) :
    sel.supportClass.type = sel.type := Class.type_foldl_addMethod _ _

theorem holder_of_mem_methods (census : Census) (p : Program) (o : OutlineOptions)
    {e : Shape × MethodId}
    (he : e ∈ (ofCensus census p o).methods) : e.2.holder = (ofCensus census p o).type := by
  obtain ⟨_, -, rfl⟩ := List.mem_map.1 he
  rfl

theorem holder_supportClass (census : Census) (p : Program) (o : OutlineOptions) (m : Method)
    (hm : m ∈ (ofCensus census p o).supportClass.methods) :
    m.id.holder = (ofCensus census p o).supportClass.type := by
  obtain ⟨e, he, rfl⟩ := List.mem_map.1 ((perm_supportClass _).mem_iff.1 hm)
  rw [type_supportClass]
  exact holder_of_mem_methods census p o he

theorem processCount_supportClass {sel : Selection} {m : Method}
    (hm : m ∈ sel.supportClass.methods) :
    m.processCount = 0 := by
  obtain ⟨_, -, rfl⟩ := List.mem_map.1 ((perm_supportClass _).mem_iff.1 hm)
  rfl

end Selection

end Outline

namespace DoubleInlining

variable {d : DoubleInlining} {caller : MethodId} {targets : List MethodId}

theorem callers_record (d : DoubleInlining) (caller : MethodId) (targets : List MethodId) :
    (d.record caller targets).callers = d.callers ∨
      caller ∉ d.callers ∧ (d.record caller targets).callers = d.callers ++ [caller] := by
  rw [record]
  split
  · exact .inl rfl
  · simp only [addNew]
    split
    · exact .inl rfl
    · grind

end DoubleInlining

namespace Session

variable {s t : Session} {ids : List MethodId}

theorem Commits.complete (h : Commits s ids t) (hs : s.findings.census.Complete) :
    t.findings.census.Complete := by
  induction h with
  | nil same => exact same.findings ▸ hs
  | cons _ _ findings _ ih => exact ih (findings ▸ hs.record _ _)

theorem Commits.exists_census (h : Commits s ids t) : ∃ found : List MethodId, found.Sublist ids ∧
    t.findings.census.methods.map Prod.fst = s.findings.census.methods.map Prod.fst ++ found := by
  induction h with
  | nil same => exact ⟨[], .slnil, by rw [same.findings, List.append_nil]⟩
  | @cons s t u r m ids _ _ findings _ ih =>
    obtain ⟨found, hfound, hmethods⟩ := ih
    rw [findings, Findings.add, Outline.Census.methods_record, List.append_assoc] at hmethods
    refine ⟨_, ?_, hmethods⟩
    split
    · exact hfound.cons r.id
    · exact hfound.cons_cons r.id

theorem Commits.callers (h : Commits s ids t) (hs : s.findings.doubleInlining.callers.Nodup) :
    t.findings.doubleInlining.callers.Nodup ∧
      ∀ id ∈ t.findings.doubleInlining.callers, id ∈ s.findings.doubleInlining.callers ∨
        id ∈ ids := by
  induction h with
  | nil same => exact ⟨same.findings ▸ hs, fun id hid => .inl (same.findings ▸ hid)⟩
  | @cons s t u r m ids _ _ findings _ ih =>
    have hcallers : t.findings.doubleInlining.callers =
        (s.findings.doubleInlining.record r.id r.summary.waiting).callers := by
          rw [findings, Findings.add]
    have ht : t.findings.doubleInlining.callers.Nodup ∧ ∀ id ∈ t.findings.doubleInlining.callers,
        id ∈ s.findings.doubleInlining.callers ∨ id = r.id := by
      rw [hcallers]
      rcases s.findings.doubleInlining.callers_record r.id r.summary.waiting with hsame |
        ⟨hnew, hadded⟩
      · grind
      · grind
    obtain ⟨hnodup, hmem⟩ := ih ht.1
    refine ⟨hnodup, fun id hid => ?_⟩
    rw [List.mem_cons, ← or_assoc]
    exact (hmem id hid).imp_left (ht.2 id)

end Session

end BytecodeOpt
