import BytecodeOpt.Proofs.CallGraph.CycleBreaking
import BytecodeOpt.Proofs.Inlining.Behaviour
import BytecodeOpt.Proofs.Pass.References

/-!
# Inlined calls are edges

The call graph asks which methods a call may run, inlining asks for the only one.  The answers
agree, so a method that is put in place of a call is the end of an edge from the caller.
-/

namespace BytecodeOpt

open Ssa Fallible

variable {program : Program} {lens : Lens} {includes : Method → Bool} {kind : InvokeKind}
  {method id : MethodId}
  {args : List Operand} {dest : Option Operand} {body : Body} {b : BlockId} {m : Method} {j : Nat}

/-! ## Calls of the code -/

theorem Op.exists_invoke_of_renameReferences {op : Op}
    (h : op.renameReferences lens = .invoke kind method args dest) :
    ∃ id, op = .invoke kind id args dest ∧ lens.lookupMethod id = method := by
  cases op with
  | invoke kind' id' args' dest' =>
    simp only [renameReferences, Op.invoke.injEq] at h
    obtain ⟨rfl, hmethod, rfl, rfl⟩ := h
    exact ⟨id', rfl, hmethod⟩
  | const dest' literal => cases literal <;> cases h
  | _ => cases h

theorem Pass.References.exists_invoke_of_run {name : MethodId}
    (h : .invoke kind method args dest ∈ ((run name lens body).body.block b).ops) :
    ∃ id, .invoke kind id args dest ∈ (body.block b).ops ∧ lens.lookupMethod id = method := by
  rw [block_run] at h
  obtain ⟨op, hmem, hrenamed⟩ := List.mem_map.1 h
  obtain ⟨id, rfl, hid⟩ := Op.exists_invoke_of_renameReferences hrenamed
  exact ⟨id, hmem, hid⟩

theorem exists_invoke_of_lift? (h : lift? m = .ok (some body))
    (hop : .invoke kind id args dest ∈ (body.block b).ops) :
    ∃ code offset, m.code = some code ∧ (offset, kind, id) ∈ code.invokes := by
  obtain ⟨code, src, i, op, holds, index, f, hcode, hi, hrenders, hmap⟩ :=
    exists_renders_of_lift? h hop rfl (by simp)
  obtain ⟨args', rfl⟩ := Op.exists_invoke_of_mapUses hmap
  unfold Lift.Renders at hrenders
  cases i with
  | invoke kind' id' regs =>
    cases hrenders with
    | act _ =>
      obtain ⟨offset, hoffset⟩ := List.mem_iff_getElem?.1 hi
      exact ⟨code, offset, hcode, List.mem_filterMap.2
        ⟨(.invoke kind id regs, offset), List.mem_zipIdx_iff_getElem?.2 hoffset, rfl⟩⟩
  | _ => cases hrenders

namespace CallGraph

/-! ## Edges of the calls -/

theorem mem_map_callee_foldl_addCall (callees : List Nat) (offset : Nat)
    (edges : List Edge) {x : Nat} :
    x ∈ (callees.foldl (fun edges callee => addCall callee offset edges) edges).map Edge.callee ↔
      x ∈ callees ∨ x ∈ edges.map Edge.callee := by
  induction callees generalizing edges with
  | nil => simp
  | cons c rest ih =>
    rw [List.foldl_cons, ih, mem_map_callee_addCall, List.mem_cons]
    tauto

theorem mem_map_callee_edgesOf {indexOf? : MethodId → Option Nat} (sites : List Site) :
    j ∈ (edgesOf indexOf? sites).map Edge.callee ↔
      ∃ site ∈ sites, j ∈ site.target.methods.filterMap indexOf? := by
  have hfold (edges : List Edge) : j ∈ (sites.foldl (fun edges site =>
        (site.target.methods.filterMap indexOf?).foldl
          (fun edges callee => addCall callee site.offset edges) edges)
          edges).map Edge.callee ↔
      (∃ site ∈ sites, j ∈ site.target.methods.filterMap indexOf?) ∨ j ∈ edges.map Edge.callee := by
    induction sites generalizing edges with
    | nil => simp
    | cons site rest ih =>
      rw [List.foldl_cons, ih, mem_map_callee_foldl_addCall]
      simp only [List.exists_mem_cons_iff, or_assoc, or_left_comm]
  exact (hfold []).trans (by simp)

theorem indexIn?_congr {nodes nodes' : List Node}
    (h : nodes.map Node.method = nodes'.map Node.method)
    (method : MethodId) : indexIn? nodes method = indexIn? nodes' method := by
  have hmap : ∀ nodes : List Node, indexIn? nodes method =
      (((nodes.map Node.method).zipIdx.reverse.find? fun e => e.1 = method).map Prod.snd) :=
        fun nodes => by
    simp [indexIn?, List.zipIdx_map, ← List.map_reverse, List.find?_map, Function.comp_def]
  rw [hmap, hmap, h]

theorem indexOf?_ofProgram (method : MethodId) : (ofProgram program lens includes).indexOf? method =
    indexIn? (program.methods.filterMap (nodeOf? program lens includes)) method := by
  refine indexIn?_congr (List.ext_getElem? fun i => ?_) method
  simp only [ofProgram, Array.toList_mapIdx, List.getElem?_map, List.getElem?_mapIdx,
    Option.map_map]
  rfl

open Pass.Inlining in
/-- What inlining takes for the callee of a call of the original code is called in the graph, if it
is a node. -/
theorem inlined_calls_are_edges (program : Program) (lens : Lens) (includes : Method → Bool) :
    (∀ kind id target, program.singleTarget? kind id = some target →
      program.possibleTargets kind id = [target]) ∧
    ∀ (s : Setting) (n : Node) (body : Body) (b : BlockId) (kind : InvokeKind) (method : MethodId)
      (args : List Operand) (dest : Option Operand) (callee : Method) (j : Nat),
      s.program = program → s.caller ∈ program.methods →
        nodeOf? program lens includes s.caller = some n →
      lift? s.caller = .ok (some body) →
      .invoke kind method args dest ∈
        ((Pass.References.run s.caller.id lens body).body.block b).ops →
      callee? s kind method = some callee →
        (ofProgram program lens includes).indexOf? callee.id = some j →
      ∃ i : Nat, (ofProgram program lens includes).nodes[i]?.map Node.method = some s.caller.id ∧
        (ofProgram program lens includes).Calls i j := by
  refine ⟨fun kind id target => Program.possibleTargets_of_singleTarget?, ?_⟩
  rintro s n body b kind method args dest callee j rfl hcaller hnode hlift hop hcallee hj
  obtain ⟨id, horiginal, rfl⟩ := Pass.References.exists_invoke_of_run hop
  obtain ⟨code, offset, hcode, hinvoke⟩ := exists_invoke_of_lift? hlift horiginal
  -- the call is a site of the caller, and the site has the callee for its only target
  have hmethods : (CallTarget.resolve s.program kind (lens.lookupMethod id)).methods =
      [callee.id] := by
    rw [CallTarget.resolve, Program.possibleTargets_of_singleTarget? (of_callee? hcallee).1]
    rfl
  have hn : n = { method := s.caller.id, sites := sitesOf s.program lens code } := by
    simp only [nodeOf?, hcode, Option.bind_eq_bind, Option.bind_some,
      Option.bind_eq_some_iff] at hnode
    obtain ⟨_, -, hnode⟩ := hnode
    exact (Option.some.inj hnode).symm
  obtain ⟨i, hi⟩ := List.mem_iff_getElem?.1 (List.mem_filterMap.2 ⟨s.caller, hcaller, hnode⟩)
  obtain ⟨callers, hget⟩ : ∃ callers, (ofProgram s.program lens includes).nodes[i]? =
    some { n.withEdges (edgesOf
      (indexIn? (s.program.methods.filterMap (nodeOf? s.program lens includes)))
        n.sites) with callers } := by
    simp [ofProgram, hi]
  refine ⟨i, (congrArg (Option.map Node.method) hget).trans (by rw [hn]; rfl), List.mem_map.1 ?_⟩
  rw [edgesAt_of_getElem? hget]
  refine (mem_map_callee_edgesOf _).2
    ⟨⟨offset, kind, .resolve s.program kind (lens.lookupMethod id)⟩, ?_,
    List.mem_filterMap.2 ⟨callee.id, ?_, ?_⟩⟩
  · rw [hn]
    exact List.mem_map.2 ⟨_, hinvoke, rfl⟩
  · grind
  · rw [← indexOf?_ofProgram]
    exact hj

/-- The call from `ping` to `pong`. -/
theorem inlined_calls_are_edges_pingPong : ∃ i : Nat,
    (ofProgram pingPong {} fun _ => true).nodes[i]?.map Node.method =
      some (staticMethod "ping" []).id ∧
      (ofProgram pingPong {} fun _ => true).Calls i 2 := by
  obtain ⟨lifted, hlift, hop⟩ :=
    exists_of_succeeds (x := lift? (staticMethod "ping" ["pong", "pong"]))
    (p := fun lifted => lifted.any fun body => (body.block 1).ops.contains
      (.invoke .static (staticMethod "pong" []).id [] none)) (by cbv)
  obtain ⟨body, rfl, hop⟩ := (Option.any_eq_true ..).1 hop
  exact (inlined_calls_are_edges pingPong {} fun _ => true).2
    { program := pingPong, caller := staticMethod "ping" ["pong", "pong"], inliner := default } _
      body 1 .static
    (staticMethod "pong" []).id [] none (staticMethod "pong" ["ping", "pong"]) 2 rfl
    (by decide) rfl hlift
    (List.contains_iff_mem.1 hop) (by decide) (by decide)

end CallGraph

end BytecodeOpt
