import BytecodeOpt.Proofs.CallGraph.Schedule

/-!
# Which calls are set aside

Calls are set aside only where every node left waits for another.  Then they are those of one node,
of a cycle that leads nowhere else: no node of any such cycle has fewer calls left, and each call
set aside stays in the cycle.  So a graph without a cycle keeps all its calls.
-/

namespace BytecodeOpt.CallGraph

open Relation Fallible

variable {g g' : CallGraph} {batch : Batch} {i j k : Nat}

/-! ## Edges -/

def edgesAt (g : CallGraph) (i : Nat) : List Edge := (g.nodes[i]?.map Node.edges).getD []

def Calls (g : CallGraph) (i j : Nat) : Prop := ∃ e ∈ g.edgesAt i, e.callee = j

def SetAside (g : CallGraph) (i j : Nat) :
    Prop := ∃ e ∈ g.edgesAt i, e.callee = j ∧ e.isBroken = true

/-- Both nodes are left, and an edge that is not set aside leads from one to the other. -/
def Waits (g : CallGraph) (i j : Nat) : Prop :=
  g.isRemoved i = false ∧ g.isRemoved j = false ∧ ∃ e ∈ g.edgesAt i, e.callee = j ∧
    e.isBroken = false

theorem Waits.calls (h : g.Waits i j) : g.Calls i j := by
  obtain ⟨-, -, e, he, heq, -⟩ := h
  exact ⟨e, he, heq⟩

theorem edgesAt_of_getElem? {n : Node} (h : g.nodes[i]? = some n) : g.edgesAt i = n.edges := by
  simp [edgesAt, h]

theorem waits_iff : g.Waits i j ↔ g.isRemoved i = false ∧ j ∈ g.liveGraph.successors i := by
  rw [mem_successors_liveGraph]
  constructor
  · rintro ⟨hi, hj, e, he, rfl, hunbroken⟩
    have hget := Array.getElem?_eq_getElem (lt_size_of_not_isRemoved hi)
    exact ⟨hi, _, hget, e, List.mem_filter.2 ⟨edgesAt_of_getElem? hget ▸ he, by
      simp [hunbroken, hj]⟩, rfl⟩
  · rintro ⟨hi, n, hn, e, he, rfl⟩
    obtain ⟨hmem, hlive⟩ := List.mem_filter.1 he
    simp only [Bool.and_eq_true, Bool.not_eq_true'] at hlive
    exact ⟨hi, hlive.2, e, edgesAt_of_getElem? hn ▸ hmem, rfl, hlive.1⟩

theorem Similar.calls_iff (h : Similar g g') : g'.Calls i j ↔ g.Calls i j := by
  have hcalls : ∀ {g : CallGraph}, g.Calls i j ↔
      j ∈ (((g.nodes[i]?.map Node.core).map fun c => c.2.2).getD []).map Edge.callee := by
    intro g
    rw [Calls, edgesAt]
    cases g.nodes[i]? with
    | none => simp
    | some n => simp [Node.core, Edge.mended]
  rw [hcalls, hcalls, h i]

theorem setAside_remove (indices : List Nat) :
    (g.remove indices).SetAside i j ↔ g.SetAside i j := by
  rw [SetAside, SetAside, edgesAt, edgesAt, map_edges_remove]

theorem setAside_breakEdges (hk : g.isRemoved k = false) :
    (g.breakEdges k).SetAside i j ↔ g.SetAside i j ∨ (i = k ∧ g.Waits k j) := by
  rw [SetAside, SetAside, edgesAt, edgesAt, getElem?_breakEdges]
  by_cases hi : i = k
  · subst hi
    have hget := Array.getElem?_eq_getElem (lt_size_of_not_isRemoved hk)
    simp only [Waits, hk, edgesAt_of_getElem? hget, hget, Option.map_some, Option.getD_some,
      if_true, Node.setAside,
      List.mem_map, true_and]
    constructor
    · grind
    · grind
  · simp [hi]

/-! ## Cycles that lead nowhere else -/

/-- Each of the two nodes waits for the other, over any number of nodes. -/
def OnCycle (g : CallGraph) (i j : Nat) :
    Prop := ReflTransGen g.Waits i j ∧ ReflTransGen g.Waits j i

/-- The node is left, and whatever a node of its cycle waits for is of the cycle too. -/
def Bottom (g : CallGraph) (i : Nat) : Prop :=
  g.isRemoved i = false ∧ ∀ m j, g.OnCycle i m → g.Waits m j → g.OnCycle i j

theorem reaches_iff (hi : g.isRemoved i = false) :
    (g.liveGraph.restrict fun i => !g.isRemoved i).Reaches i j ↔ ReflTransGen g.Waits i j := by
  have hlt : ∀ {x}, g.isRemoved x = false →
      x < (g.liveGraph.restrict fun i => !g.isRemoved i).size :=
    fun hx => by simpa using lt_size_of_not_isRemoved hx
  constructor
  · intro hpath
    induction hpath with
    | refl => exact .refl
    | snoc _ hmem _ _ ih =>
      obtain ⟨hb, -, hsucc⟩ := Digraph.mem_successors_restrict.1 hmem
      exact ih.tail (waits_iff.2 ⟨by simpa using hb, hsucc⟩)
  · intro hchain
    induction hchain with
    | refl => exact .refl (hlt hi) trivial
    | tail _ hstep ih =>
      refine ih.snoc (Digraph.mem_successors_restrict.2 ⟨?_, ?_, (waits_iff.1 hstep).2⟩)
        (hlt hstep.2.1) trivial
      · simp [hstep.1]
      · simp [hstep.2.1]

theorem mem_component_iff {members : List Nat}
    (h : members ∈ g.liveGraph.components fun i => !g.isRemoved i) (hi : i ∈ members) :
    g.isRemoved i = false ∧ ∀ j, j ∈ members ↔ g.isRemoved j = false ∧ g.OnCycle i j := by
  obtain ⟨a, ha⟩ := Digraph.exists_of_mem_components h
  obtain ⟨-, hkept, hai, hia⟩ := (ha i).1 hi
  have hleft : g.isRemoved i = false := by simpa using hkept
  refine ⟨hleft, fun j => ?_⟩
  rw [ha j]
  constructor
  · rintro ⟨-, hj, haj, hja⟩
    have hj : g.isRemoved j = false := by simpa using hj
    exact ⟨hj, (reaches_iff hleft).1 (hia.trans haj), (reaches_iff hj).1 (hja.trans hai)⟩
  · rintro ⟨hj, hij, hji⟩
    exact ⟨by simpa using lt_size_of_not_isRemoved hj, by
      simp [hj], hai.trans ((reaches_iff hleft).2 hij),
      ((reaches_iff hj).2 hji).trans hia⟩

theorem mem_bottoms_iff : i ∈ g.bottoms.flatten ↔ g.Bottom i := by
  simp only [bottoms, List.mem_flatten, List.mem_filter, List.all_eq_true, List.contains_iff_mem]
  constructor
  · rintro ⟨members, ⟨hmembers, hclosed⟩, hi⟩
    obtain ⟨hleft, hspec⟩ := mem_component_iff hmembers hi
    refine ⟨hleft, fun m j hm hwaits => ((hspec j).1 ?_).2⟩
    exact hclosed m ((hspec m).2 ⟨hwaits.1, hm⟩) j (waits_iff.1 hwaits).2
  · rintro ⟨hleft, hclosed⟩
    have hlt : i < g.liveGraph.size := by simpa using lt_size_of_not_isRemoved hleft
    obtain ⟨members, hmembers, hmem⟩ :=
      @Digraph.exists_component g.liveGraph (fun i => !g.isRemoved i) i hlt (by simp [hleft])
    have hi : i ∈ members := (hmem i).2 ⟨hlt, by simp [hleft], Digraph.joined_self hlt⟩
    obtain ⟨-, hspec⟩ := mem_component_iff hmembers hi
    refine ⟨members, ⟨hmembers, fun m hm j hj => ?_⟩, hi⟩
    obtain ⟨hm, hcycle⟩ := (hspec m).1 hm
    have hwaits : g.Waits m j := waits_iff.2 ⟨hm, hj⟩
    exact (hspec j).2 ⟨hwaits.2.1, hclosed m j hcycle hwaits⟩

/-! ## One batch -/

/-- The batch sets no call aside: nothing is left, or some node left waits for none. -/
structure KeepsCalls (g : CallGraph) (batch : Batch) (g' : CallGraph) : Prop where
  free : g.isEmpty = true ∨ ∃ (i : Nat) (n : Node), g.nodes[i]? = some n ∧ n.isRemoved = false ∧
    n.outDegree = 0
  brokeCycle : batch.brokeCycle = false
  setAside : ∀ i j, g'.SetAside i j ↔ g.SetAside i j

/-- The batch is node `k` alone, whose calls to nodes left are set aside. -/
structure BreaksAt (g : CallGraph) (batch : Batch) (g' : CallGraph) (k : Nat) : Prop where
  stuck : ∀ (i : Nat) (n : Node), g.nodes[i]? = some n → n.isRemoved = false → n.outDegree ≠ 0
  bottom : g.Bottom k
  cheapest : ∀ i, g.Bottom i → g.liveWeight k < g.liveWeight i ∨
    (g.liveWeight k = g.liveWeight i ∧ k ≤ i)
  setAside : ∀ i j, g'.SetAside i j ↔ g.SetAside i j ∨ (i = k ∧ g.Waits k j)
  inside : ∀ j, g.Waits k j → g.OnCycle k j
  batch_eq : batch = { methods := g.methodsAt [k], brokeCycle := true }
  removed : ∀ i, g'.isRemoved i = true ↔ i = k ∨ g.isRemoved i = true

theorem Consistent.leaves_breakEdges (h : g.Consistent) (hk : g.isRemoved k = false)
    (hleaves : g.leaves = []) :
    (g.breakEdges k).leaves = [k] := by
  refine List.perm_singleton.1
    ((List.perm_ext_iff_of_nodup (nodup_leaves _) (List.nodup_singleton k)).2 fun i => ?_)
  rw [List.mem_singleton]
  constructor
  · intro hi
    by_contra hne
    -- the other nodes are as they were, and none of them was a leaf
    obtain ⟨n, hn, hleaf⟩ := mem_leaves.1 hi
    rw [getElem?_breakEdges] at hn
    have : i ∈ g.leaves := mem_leaves.2 ⟨n, by simpa [hne] using hn, hleaf⟩
    simp [hleaves] at this
  · rintro rfl
    exact h.mem_leaves_breakEdges hk

theorem Consistent.exists_next_breaks (h : g.Consistent) : ∃ batch g', g.next = .ok (batch, g') ∧
    (KeepsCalls g batch g' ∨ ∃ k, BreaksAt g batch g' k) := by
  rcases h.next_cases with ⟨hempty, hnext⟩ | ⟨-, hne, hnext⟩ | ⟨-, hleaves, k, hk, hleast, -, hnext⟩
  · exact ⟨_, _, hnext, .inl ⟨.inl hempty, rfl, fun _ _ => .rfl⟩⟩
  · obtain ⟨i, hi⟩ := List.exists_mem_of_ne_nil _ hne
    exact ⟨_, _, hnext, .inl ⟨.inr ⟨i, mem_leaves.1 hi⟩, rfl, fun _ _ => setAside_remove _⟩⟩
  · have hbottom := mem_bottoms_iff.1 hk
    rw [h.leaves_breakEdges hbottom.1 hleaves] at hnext
    refine ⟨_, _, hnext, .inr ⟨k, ?_⟩⟩
    constructor
    case stuck =>
      intro i n hn hleft hzero
      have : i ∈ g.leaves := mem_leaves.2 ⟨n, hn, hleft, hzero⟩
      simp [hleaves] at this
    case bottom => exact hbottom
    case cheapest =>
      intro i hi
      have := hleast i (mem_bottoms_iff.2 hi)
      rw [← Bool.not_eq_true, isCheaper_iff] at this
      omega
    case setAside => exact fun i j => (setAside_remove _).trans (setAside_breakEdges hbottom.1)
    case inside => exact fun j => hbottom.2 k j ⟨.refl, .refl⟩
    case batch_eq => rw [(similar_breakEdges g k).methodsAt]
    case removed => exact fun i =>
      isRemoved_remove.trans (by rw [isRemoved_breakEdges, List.mem_singleton])

/-- A node that waits for itself over a cycle calls itself over that cycle. -/
theorem BreaksAt.calls_self (h : BreaksAt g batch g' k) (hk : g.Waits k j) : TransGen g.Calls k k :=
  TransGen.head' hk.calls (ReflTransGen.mono (fun _ _ => Waits.calls) j k (h.inside j hk).2)

end BytecodeOpt.CallGraph
