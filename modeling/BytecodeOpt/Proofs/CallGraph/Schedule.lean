import BytecodeOpt.Proofs.CallGraph.Counters
import BytecodeOpt.Proofs.Fallible
import BytecodeOpt.Proofs.Graph.Components
import Mathlib.Data.List.Permutation

/-!
# Every method is handed out once, callees first

A graph with nodes left always gives a batch: if every node waits for another, some cycle leads
nowhere else, and setting aside the calls of one of its nodes makes that node a leaf.  A node is
handed out when each of its edges is set aside or leads to a node of an earlier batch.
-/

namespace BytecodeOpt.CallGraph

open Fallible

variable {indices : List Nat} {i : Nat} {edges : List Edge} {batch : Batch} {size : Nat} {e : Edge}

/-! ## The graph of a program -/

structure Fresh (size : Nat) (edges : List Edge) : Prop where
  ascending : (edges.map Edge.callee).Pairwise (· < ·)
  callee_lt : ∀ e ∈ edges, e.callee < size
  unbroken : ∀ e ∈ edges, e.isBroken = false

theorem mem_map_callee_addCall {callee offset x : Nat} :
    x ∈ (addCall callee offset edges).map Edge.callee ↔ x = callee ∨ x ∈ edges.map Edge.callee := by
  fun_induction addCall callee offset edges with
  | case1 => simp
  | case2 e rest _ => simp
  | case3 e rest _ heq => simp [heq]
  | case4 e rest _ _ ih => grind

theorem Fresh.cons (h : Fresh size edges) (hlt : ∀ x ∈ edges.map Edge.callee, e.callee < x)
    (hsize : e.callee < size) (hunbroken : e.isBroken = false) : Fresh size (e :: edges) where
  ascending := List.pairwise_cons.2 ⟨hlt, h.ascending⟩
  callee_lt := List.forall_mem_cons.2 ⟨hsize, h.callee_lt⟩
  unbroken := List.forall_mem_cons.2 ⟨hunbroken, h.unbroken⟩

theorem Fresh.tail (h : Fresh size (e :: edges)) : Fresh size edges where
  ascending := (List.pairwise_cons.1 h.ascending).2
  callee_lt := fun x hx => h.callee_lt x (List.mem_cons_of_mem _ hx)
  unbroken := fun x hx => h.unbroken x (List.mem_cons_of_mem _ hx)

theorem Fresh.addCall {size callee offset : Nat} (h : Fresh size edges) (hcallee : callee < size) :
    Fresh size (addCall callee offset edges) := by
  fun_induction CallGraph.addCall callee offset edges with
  | case1 => exact h.cons (by simp) hcallee rfl
  | case2 e rest hlt =>
    refine h.cons ?_ hcallee rfl
    intro x hx
    rcases List.mem_cons.1 hx with rfl | hx
    · exact hlt
    · exact Nat.lt_trans hlt ((List.pairwise_cons.1 h.ascending).1 x hx)
  | case3 e rest _ _ =>
    exact h.tail.cons (List.pairwise_cons.1 h.ascending).1 (h.callee_lt e List.mem_cons_self)
      (h.unbroken e List.mem_cons_self)
  | case4 e rest hlt hne ih =>
    refine (ih h.tail).cons ?_ (h.callee_lt e List.mem_cons_self) (h.unbroken e List.mem_cons_self)
    intro x hx
    rcases mem_map_callee_addCall.1 hx with rfl | hx
    · omega
    · exact (List.pairwise_cons.1 h.ascending).1 x hx

theorem fresh_edgesOf {indexOf? : MethodId → Option Nat}
    (hindex : ∀ method i, indexOf? method = some i → i < size)
    (sites : List Site) : Fresh size (edgesOf indexOf? sites) := by
  unfold edgesOf
  refine List.foldlRecOn sites _ ⟨by simp, by simp, by simp⟩ fun edges hedges site _ => ?_
  refine List.foldlRecOn _ _ hedges fun edges hedges callee hcallee => ?_
  obtain ⟨method, -, heq⟩ := List.mem_filterMap.1 hcallee
  exact hedges.addCall (hindex method callee heq)

theorem lt_length_of_indexIn? {nodes : List Node} {method : MethodId}
    (h : indexIn? nodes method = some i) :
    i < nodes.length := by
  obtain ⟨entry, hfind, rfl⟩ := Option.map_eq_some_iff.1 h
  have hmem := List.mem_reverse.1 (List.mem_of_find?_eq_some hfind)
  exact (List.mem_zipIdx hmem).2.1.trans_eq (Nat.zero_add _)

theorem exists_of_getElem?_ofProgram {program : Program} {lens : Lens}
    {includes : Method → Bool} {n : Node}
    (h : (ofProgram program lens includes).nodes[i]? = some n) :
    n.isRemoved = false ∧ n.outDegree = n.edges.length ∧
      Fresh (ofProgram program lens includes).nodes.size n.edges := by
  simp only [ofProgram, Array.getElem?_mapIdx, List.getElem?_toArray, List.getElem?_map,
    Option.map_map,
    Array.size_mapIdx] at h ⊢
  obtain ⟨n₀, hn₀, rfl⟩ := Option.map_eq_some_iff.1 h
  refine ⟨?_, rfl, ?_⟩
  · obtain ⟨m, -, hnode⟩ := List.mem_filterMap.1 (List.mem_of_getElem? hn₀)
    simp only [nodeOf?, Option.bind_eq_bind, Option.bind_eq_some_iff] at hnode
    obtain ⟨code, -, -, -, hnode⟩ := hnode
    exact (congrArg Node.isRemoved (Option.some.inj hnode)).symm
  · simpa [Node.withEdges] using fresh_edgesOf (fun _ _ => lt_length_of_indexIn?) n₀.sites

theorem isRemoved_ofProgram {program : Program} {lens : Lens} {includes : Method → Bool}
    (h : i < (ofProgram program lens includes).nodes.size) :
    (ofProgram program lens includes).isRemoved i = false := by
  have hget := Array.getElem?_eq_getElem h
  rw [isRemoved_of_getElem? hget]
  exact (exists_of_getElem?_ofProgram hget).1

theorem callersOf_ofProgram {program : Program} {lens : Lens} {includes : Method → Bool} (k : Nat) :
    (ofProgram program lens includes).callersOf k = callersAmong
    (ofProgram program lens includes).nodes k := by
  have hsame : ∀ (nodes : Array Node) (callers : Nat → List Nat),
      callersAmong (nodes.mapIdx fun i n => { n with callers := callers i }) k =
        callersAmong nodes k := by
    intro nodes callers
    simp [callersAmong, Array.getElem?_mapIdx, Option.any_map]
  by_cases hk : k < (ofProgram program lens includes).nodes.size
  · rw [callersOf, Array.getElem?_eq_getElem hk, Option.map_some, Option.getD_some]
    simp only [ofProgram, Array.getElem_mapIdx, hsame]
  · rw [callersOf, Array.getElem?_eq_none (Nat.le_of_not_lt hk), Option.map_none,
      Option.getD_none, eq_comm,
      callersAmong, List.filter_eq_nil_iff]
    intro i _ hany
    obtain ⟨n, hn, hedge⟩ := (Option.any_eq_true _ _).1 hany
    obtain ⟨e, he, heq⟩ := List.any_eq_true.1 hedge
    have := (exists_of_getElem?_ofProgram hn).2.2.callee_lt e he
    exact hk (of_decide_eq_true heq ▸ this)

theorem consistent_ofProgram (program : Program) (lens : Lens) (includes : Method → Bool) :
    (ofProgram program lens includes).Consistent := by
  constructor
  case remaining =>
    have hleft : (ofProgram program lens includes).left =
        Finset.range (ofProgram program lens includes).nodes.size :=
      Finset.filter_true_of_mem fun i hi => isRemoved_ofProgram (Finset.mem_range.1 hi)
    rw [hleft, Finset.card_range]
    simp [ofProgram]
  case degree =>
    intro i n hn _
    obtain ⟨-, hdegree, hfresh⟩ := exists_of_getElem?_ofProgram hn
    rw [hdegree, liveEdges, List.filter_eq_self.2]
    intro e he
    simp [hfresh.unbroken e he, isRemoved_ofProgram (hfresh.callee_lt e he)]
  case distinct =>
    intro i n hn
    exact (exists_of_getElem?_ofProgram hn).2.2.ascending.imp Nat.ne_of_lt
  case callee_lt =>
    intro i n hn
    exact (exists_of_getElem?_ofProgram hn).2.2.callee_lt
  case nodup_callers =>
    intro k
    rw [callersOf_ofProgram]
    exact List.nodup_range.filter _
  case callers =>
    intro i k
    rw [callersOf_ofProgram, callersAmong, List.mem_filter, List.mem_range, Option.any_eq_true]
    simp only [List.any_eq_true, decide_eq_true_eq, List.mem_map]
    refine and_iff_right_of_imp ?_
    rintro ⟨n, hn, -⟩
    exact (Array.getElem?_eq_some_iff.1 hn).1

/-! ## What stays -/

def Edge.mended (e : Edge) : Edge := { e with isBroken := false }

/-- What no step changes: the method, its calls, and its edges but for being set aside. -/
def Node.core (n : Node) : MethodId × List Site × List Edge :=
  (n.method, n.sites, n.edges.map Edge.mended)

def Similar (g g' : CallGraph) : Prop :=
  ∀ i : Nat, g'.nodes[i]?.map Node.core = g.nodes[i]?.map Node.core

variable {g g' g'' : CallGraph}

theorem Similar.refl (g : CallGraph) : Similar g g := fun _ => rfl

theorem Similar.trans (h : Similar g g') (h' : Similar g' g'') : Similar g g'' :=
  fun i => (h' i).trans (h i)

theorem Similar.size_eq (h : Similar g g') : g'.nodes.size = g.nodes.size := by
  have hle : ∀ i, g'.nodes.size ≤ i ↔ g.nodes.size ≤ i := by
    intro i
    rw [← Array.getElem?_eq_none_iff, ← Array.getElem?_eq_none_iff,
      ← Option.map_eq_none_iff (f := Node.core), h i, Option.map_eq_none_iff]
  have := hle g.nodes.size
  have := hle g'.nodes.size
  omega

theorem Similar.methodsAt (h : Similar g g') (indices : List Nat) :
    g'.methodsAt indices = g.methodsAt indices := by
  unfold CallGraph.methodsAt
  refine List.filterMap_congr fun i _ => ?_
  have := congrArg (Option.map Prod.fst) (h i)
  rwa [Option.map_map, Option.map_map] at this

theorem similar_removeNode (g : CallGraph) (k : Nat) : Similar g (g.removeNode k) := by
  intro i
  rw [getElem?_removeNode, Option.map_map]
  congr 1
  funext n
  simp [Node.core]

theorem similar_breakEdges (g : CallGraph) (k : Nat) : Similar g (g.breakEdges k) := by
  intro i
  rw [getElem?_breakEdges, Option.map_map]
  congr 1
  funext n
  by_cases hi : i = k
  · simp only [hi, Function.comp_apply, if_true, Node.core, Node.setAside, List.map_map]
    congr 2
    refine List.map_congr_left fun e _ => ?_
    simp only [Function.comp_apply]
    split <;> rfl
  · simp [hi]

/-! ## Taking several nodes out -/

theorem similar_remove (g : CallGraph) (indices : List Nat) : Similar g (g.remove indices) :=
  List.foldlRecOn indices _ (Similar.refl g) fun g' h k _ => h.trans (similar_removeNode g' k)

theorem isRemoved_remove :
    (g.remove indices).isRemoved i = true ↔ i ∈ indices ∨ g.isRemoved i = true := by
  induction indices generalizing g with
  | nil => simp [remove]
  | cons k rest ih =>
    rw [show g.remove (k :: rest) = (g.removeNode k).remove rest from rfl, ih, isRemoved_removeNode,
      Bool.or_eq_true, beq_iff_eq, List.mem_cons]
    tauto

theorem map_edges_remove (indices : List Nat) (i : Nat) :
    (g.remove indices).nodes[i]?.map Node.edges = g.nodes[i]?.map Node.edges := by
  refine List.foldlRecOn (motive := fun g' : CallGraph => g'.nodes[i]?.map Node.edges = _) indices _
    rfl fun g' h k _ => ?_
  rw [getElem?_removeNode, Option.map_map, ← h]
  congr 1
  funext n
  exact Node.edges_afterRemoval

theorem Consistent.remove (h : g.Consistent) (hnodup : indices.Nodup)
    (hleft : ∀ i ∈ indices, g.isRemoved i = false) :
    (g.remove indices).Consistent := by
  induction indices generalizing g with
  | nil => exact h
  | cons k rest ih =>
    obtain ⟨hk, hrest⟩ := List.nodup_cons.1 hnodup
    refine ih (h.removeNode (hleft k List.mem_cons_self)) hrest fun i hi => ?_
    rw [isRemoved_removeNode, hleft i (List.mem_cons_of_mem _ hi), Bool.or_false,
      beq_eq_false_iff_ne]
    exact fun hc => hk (hc ▸ hi)

/-! ## Leaves -/

theorem mem_leaves :
    i ∈ g.leaves ↔ ∃ n, g.nodes[i]? = some n ∧ n.isRemoved = false ∧ n.outDegree = 0 := by
  simp only [leaves, List.mem_filter, List.mem_range, Option.any_eq_true, Bool.and_eq_true,
    Bool.not_eq_true', beq_iff_eq, and_iff_right_iff_imp]
  rintro ⟨n, hn, -⟩
  exact (Array.getElem?_eq_some_iff.1 hn).1

theorem nodup_leaves (g : CallGraph) : g.leaves.Nodup :=
  List.nodup_range.filter _

theorem not_isRemoved_of_mem_leaves (h : i ∈ g.leaves) : g.isRemoved i = false := by
  obtain ⟨n, hn, hleft, -⟩ := mem_leaves.1 h
  rw [isRemoved_of_getElem? hn, hleft]

theorem Consistent.edge_of_mem_leaves (h : g.Consistent) (hi : i ∈ g.leaves) {n : Node}
    (hn : g.nodes[i]? = some n)
    (he : e ∈ n.edges) : e.isBroken = true ∨ g.isRemoved e.callee = true := by
  obtain ⟨n', hn', hleft, hdegree⟩ := mem_leaves.1 hi
  obtain rfl : n = n' := Option.some.inj (hn.symm.trans hn')
  have hnil : g.liveEdges n = [] :=
    List.length_eq_zero_iff.1 ((h.degree i n hn hleft).symm.trans hdegree)
  have := List.filter_eq_nil_iff.1 hnil e he
  simpa [or_iff_not_imp_left] using this

/-! ## Breaking a cycle -/

theorem mem_successors_liveGraph {i j : Nat} :
    j ∈ g.liveGraph.successors i ↔ ∃ n, g.nodes[i]? = some n ∧ ∃ e ∈ g.liveEdges n,
      e.callee = j := by
  simp only [Digraph.successors, liveGraph, Array.getD_eq_getD_getElem?, Array.getElem?_map]
  cases g.nodes[i]? with
  | none => simp
  | some n => simp

@[simp] theorem size_liveGraph : g.liveGraph.size = g.nodes.size := by
  simp [liveGraph, Digraph.size]

theorem isCheaper_iff {c d : Nat × Nat} :
    isCheaper c d = true ↔ c.1 < d.1 ∨ c.1 = d.1 ∧ c.2 < d.2 := by
  simp [isCheaper]

theorem exists_foldl_keepCheaper (candidates : List (Nat × Nat)) (best : Nat × Nat) :
    ∃ c ∈ best :: candidates, candidates.foldl keepCheaper (some best) = some c ∧
      ∀ d ∈ best :: candidates, isCheaper d c = false := by
  induction candidates generalizing best with
  | nil => exact ⟨best, by simp, rfl, by simp [isCheaper]⟩
  | cons c rest ih =>
    simp only [List.foldl_cons, keepCheaper]
    split
    · rename_i hcheaper
      obtain ⟨d, hd, heq, hleast⟩ := ih c
      refine ⟨d, List.mem_cons_of_mem _ hd, heq, List.forall_mem_cons.2 ⟨?_, hleast⟩⟩
      have hc := hleast c List.mem_cons_self
      rw [← Bool.not_eq_true, isCheaper_iff] at hc ⊢
      rw [isCheaper_iff] at hcheaper
      omega
    · rename_i hcheaper
      obtain ⟨d, hd, heq, hleast⟩ := ih best
      have hbest := hleast best List.mem_cons_self
      refine ⟨d, ?_, heq, List.forall_mem_cons.2 ⟨hbest, List.forall_mem_cons.2 ⟨?_, fun x hx =>
        hleast x (List.mem_cons_of_mem _ hx)⟩⟩⟩
      · grind
      · rw [← Bool.not_eq_true, isCheaper_iff] at hbest ⊢
        rw [isCheaper_iff] at hcheaper
        omega

/-- A node to break a cycle at is one of a component that leads nowhere else, and none of those is
cheaper. -/
theorem exists_breaker? (h : g.bottoms.flatten ≠ []) :
    ∃ i ∈ g.bottoms.flatten, g.breaker? = some i ∧
    ∀ j ∈ g.bottoms.flatten, isCheaper (g.liveWeight j, j) (g.liveWeight i, i) = false := by
  obtain ⟨first, rest, heq⟩ := List.exists_cons_of_ne_nil h
  obtain ⟨c, hc, hfold, hleast⟩ := exists_foldl_keepCheaper (rest.map fun i => (g.liveWeight i, i))
    (g.liveWeight first, first)
  rw [← List.map_cons (f := fun i => (g.liveWeight i, i)), ← heq] at hc hleast
  obtain ⟨i, hi, rfl⟩ := List.mem_map.1 hc
  refine ⟨i, hi, ?_, fun j hj => hleast _ (List.mem_map_of_mem hj)⟩
  simp only [breaker?, heq, List.map_cons, List.foldl_cons]
  exact congrArg (Option.map Prod.snd) hfold

theorem not_isRemoved_of_mem_bottoms (h : i ∈ g.bottoms.flatten) : g.isRemoved i = false := by
  obtain ⟨members, hmembers, hi⟩ := List.mem_flatten.1 h
  obtain ⟨a, ha⟩ := Digraph.exists_of_mem_components (List.mem_filter.1 hmembers).1
  simpa using ((ha i).1 hi).2.1

theorem bottoms_flatten_ne_nil (h : ∃ i, g.isRemoved i = false) : g.bottoms.flatten ≠ [] := by
  obtain ⟨i, hi⟩ := h
  have hkept : ∃ i, i < g.liveGraph.size ∧ (!g.isRemoved i) = true :=
    ⟨i, by simpa using lt_size_of_not_isRemoved hi, by rw [hi]; rfl⟩
  obtain ⟨members, hmembers, hne, hclosed⟩ := Digraph.exists_bottom hkept
  obtain ⟨m, hm⟩ := List.exists_mem_of_ne_nil members hne
  refine List.ne_nil_of_mem (List.mem_flatten.2 ⟨members, List.mem_filter.2 ⟨hmembers, ?_⟩, hm⟩)
  refine List.all_eq_true.2 fun a ha => List.all_eq_true.2 fun b hb => ?_
  obtain ⟨n, -, e, he, rfl⟩ := mem_successors_liveGraph.1 hb
  -- a live edge leads to a node left, so it stays among the nodes the components are made of
  have hleft : g.isRemoved e.callee = false := by
    simpa using (Bool.and_eq_true_iff.1 (List.mem_filter.1 he).2).2
  exact List.contains_iff_mem.2 (hclosed a ha e.callee hb
    (by simpa using lt_size_of_not_isRemoved hleft) (by rw [hleft]; rfl))

theorem Consistent.mem_leaves_breakEdges (h : g.Consistent) {k : Nat} (hk : g.isRemoved k = false) :
    k ∈ (g.breakEdges k).leaves := by
  have hlt : k < g.nodes.size := lt_size_of_not_isRemoved hk
  have hn := Array.getElem?_eq_getElem hlt
  have hleft := (isRemoved_of_getElem? hn).symm.trans hk
  refine mem_leaves.2 ⟨g.nodes[k].setAside g, ?_, hleft, ?_⟩
  · rw [getElem?_breakEdges, hn, Option.map_some, if_pos rfl]
  · simp [Node.setAside, h.degree k _ hn hleft]

/-! ## A batch -/

/-- What one batch does: it takes out of `g` the nodes at `indices`, and leaves `g'`. -/
structure HandsOut (g : CallGraph) (batch : Batch) (g' : CallGraph) (indices : List Nat) :
    Prop where
  methods : batch.methods = g.methodsAt indices
  nodup : indices.Nodup
  left : ∀ i ∈ indices, g.isRemoved i = false
  removed : ∀ i, g'.isRemoved i = true ↔ i ∈ indices ∨ g.isRemoved i = true
  nonempty : g.isEmpty = false → batch.methods ≠ []
  /-- Each call of a method handed out was set aside or leads to a method handed out before. -/
  calls : ∀ i ∈ indices, ∀ n : Node, g'.nodes[i]? = some n → ∀ e ∈ n.edges, e.isBroken = true ∨
    ∃ callee : Node, g.nodes[e.callee]? = some callee ∧ callee.isRemoved = true
  same : Similar g g'

theorem handsOut_leaves {broken : CallGraph} (brokeCycle : Bool) (h : broken.Consistent)
    (hsame : Similar g broken)
    (hremoved : ∀ i, broken.isRemoved i = g.isRemoved i) (hne : broken.leaves ≠ []) :
    HandsOut g { methods := broken.methodsAt broken.leaves, brokeCycle }
      (broken.remove broken.leaves) broken.leaves := by
  have hsame' : Similar g (broken.remove broken.leaves) := hsame.trans (similar_remove _ _)
  constructor
  case methods => exact hsame.methodsAt _
  case nodup => exact nodup_leaves broken
  case left => exact fun i hi => hremoved i ▸ not_isRemoved_of_mem_leaves hi
  case removed => exact fun i => isRemoved_remove.trans (by rw [hremoved])
  case nonempty =>
    intro _
    obtain ⟨i, hi⟩ := List.exists_mem_of_ne_nil _ hne
    obtain ⟨n, hn, -⟩ := mem_leaves.1 hi
    exact List.ne_nil_of_mem (List.mem_filterMap.2 ⟨i, hi, by rw [hn]; rfl⟩)
  case calls =>
    intro i hi n hn e he
    -- the edges are those of the graph before the leaves are taken out
    have hmap := map_edges_remove (g := broken) broken.leaves i
    rw [hn, Option.map_some] at hmap
    obtain ⟨n', hn', hedges⟩ := Option.map_eq_some_iff.1 hmap.symm
    have hcallee := (h.callee_lt i n' hn' e (hedges ▸ he)).trans_eq hsame.size_eq
    refine (h.edge_of_mem_leaves hi hn' (hedges ▸ he)).imp_right fun hcall => ?_
    have hget := Array.getElem?_eq_getElem hcallee
    exact ⟨_, hget, (isRemoved_of_getElem? hget).symm.trans ((hremoved _).symm.trans hcall)⟩
  case same => exact hsame'

/-- What a batch is: nothing, the leaves, or the one node whose calls are set aside. -/
theorem Consistent.next_cases (h : g.Consistent) :
    (g.isEmpty = true ∧ g.next = .ok ({}, g)) ∨
    (g.isEmpty = false ∧ g.leaves ≠ [] ∧ g.next = .ok ({ methods := g.methodsAt g.leaves },
      g.remove g.leaves)) ∨
    (g.isEmpty = false ∧ g.leaves = [] ∧ ∃ k ∈ g.bottoms.flatten,
      (∀ j ∈ g.bottoms.flatten, isCheaper (g.liveWeight j, j) (g.liveWeight k, k) = false) ∧
      (g.breakEdges k).leaves ≠ [] ∧
      g.next = .ok
        ({ methods := (g.breakEdges k).methodsAt (g.breakEdges k).leaves, brokeCycle := true },
        (g.breakEdges k).remove (g.breakEdges k).leaves)) := by
  unfold next
  cases hempty : g.isEmpty with
  | true => exact .inl ⟨rfl, rfl⟩
  | false =>
    refine .inr ?_
    cases hleaves : g.leaves with
    | cons first rest => exact .inl ⟨rfl, by simp, rfl⟩
    | nil =>
      obtain ⟨k, hk, hbreaker, hleast⟩ :=
        exists_breaker? (bottoms_flatten_ne_nil (h.exists_left hempty))
      have hne : (g.breakEdges k).leaves ≠ [] :=
        List.ne_nil_of_mem (h.mem_leaves_breakEdges (not_isRemoved_of_mem_bottoms hk))
      exact .inr ⟨rfl, rfl, k, hk, hleast, hne, by simp [hbreaker, hne]⟩

theorem Consistent.exists_next (h : g.Consistent) :
    ∃ batch g' indices, g.next = .ok (batch, g') ∧ HandsOut g batch g' indices ∧ g'.Consistent := by
  have hconsistent : ∀ {b : CallGraph}, b.Consistent → (b.remove b.leaves).Consistent :=
    fun hb => hb.remove (nodup_leaves _) fun _ => not_isRemoved_of_mem_leaves
  rcases h.next_cases with ⟨hempty, hnext⟩ | ⟨-, hne, hnext⟩ | ⟨-, -, k, -, -, hne, hnext⟩
  · refine ⟨_, _, [], hnext, ?_, h⟩
    constructor <;> simp [methodsAt, hempty, Similar.refl]
  · exact ⟨_, _, _, hnext, handsOut_leaves false h (Similar.refl g) (fun _ => rfl) hne,
      hconsistent h⟩
  · exact ⟨_, _, _, hnext, handsOut_leaves true (h.breakEdges k) (similar_breakEdges g k)
      (isRemoved_breakEdges k) hne,
      hconsistent (h.breakEdges k)⟩

/-! ## Runs -/

inductive Run (g : CallGraph) : List Batch → CallGraph → Prop where
  | start : Run g [] g
  | next {batches : List Batch} {g' g'' : CallGraph} {batch : Batch} :
      Run g batches g' → g'.next = .ok (batch, g'') → Run g (batches ++ [batch]) g''

theorem Run.append_batchesUpTo {before : List Batch} {steps : List (Batch × CallGraph)}
    (hrun : Run g before g') (count : Nat) (h : g'.batchesUpTo count = .ok steps) :
    ∃ g'', Run g (before ++ steps.map Prod.fst) g'' := by
  induction count generalizing before g' steps with
  | zero =>
    obtain rfl : [] = steps := Except.ok.inj h
    exact ⟨g', by simpa using hrun⟩
  | succ count ih =>
    unfold batchesUpTo at h
    split at h
    · grind
    · obtain ⟨⟨batch, rest⟩, hnext, h⟩ := bind_eq_ok.1 h
      obtain ⟨later, hlater, h⟩ := bind_eq_ok.1 h
      obtain rfl : (batch, rest) :: later = steps := Except.ok.inj h
      obtain ⟨g'', hfinal⟩ := ih (hrun.next hnext) hlater
      exact ⟨g'', by simpa using hfinal⟩

structure Scheduled (g : CallGraph) (batches : List Batch) (g' : CallGraph) : Prop where
  same : Similar g g'
  degree : ∀ (i : Nat) (n : Node), g'.nodes[i]? = some n → n.isRemoved = false →
    n.outDegree = (g'.liveEdges n).length
  /-- The methods handed out are those of the nodes taken out, each as often as there are nodes. -/
  handed : (batches.flatMap Batch.methods).Perm
    (g.methodsAt ((List.range g.nodes.size).filter g'.isRemoved))
  /-- The graph is empty once all nodes are taken out, and that after one batch per node at the
  latest. -/
  isEmpty_iff : g'.isEmpty = true ↔ ∀ i < g.nodes.size, g'.isRemoved i = true
  ends : g.nodes.size ≤ batches.length → g'.isEmpty = true

section

variable (h : HandsOut g batch g' indices)
include h

theorem HandsOut.left_subset : g'.left ⊆ g.left := by
  intro i hi
  rw [mem_left, Bool.eq_false_iff] at hi ⊢
  exact fun hc => hi ((h.removed i).2 (.inr hc))

theorem HandsOut.card_left_lt (hne : g.isEmpty = false) : g'.left.card < g.left.card := by
  have hindices : indices ≠ [] := by
    rintro rfl
    exact h.nonempty hne h.methods
  obtain ⟨i, hi⟩ := List.exists_mem_of_ne_nil _ hindices
  refine Finset.card_lt_card ⟨h.left_subset, fun hsub => ?_⟩
  have hleft := mem_left.1 (hsub (mem_left.2 (h.left i hi)))
  rw [(h.removed i).2 (.inl hi)] at hleft
  simp at hleft

theorem HandsOut.perm_removed :
    ((List.range g.nodes.size).filter g'.isRemoved).Perm
    ((List.range g.nodes.size).filter g.isRemoved ++ indices) := by
  have hnodup : ((List.range g.nodes.size).filter g.isRemoved ++ indices).Nodup := by
    refine (List.nodup_range.filter _).append h.nodup ?_
    intro i hold hnew
    have := (List.mem_filter.1 hold).2
    rw [h.left i hnew] at this
    simp at this
  refine (List.perm_ext_iff_of_nodup (List.nodup_range.filter _) hnodup).2 fun i => ?_
  simp only [List.mem_filter, List.mem_range, List.mem_append, h.removed]
  constructor
  · grind
  · rintro (⟨hlt, hi⟩ | hi)
    · exact ⟨hlt, .inr hi⟩
    · exact ⟨lt_size_of_not_isRemoved (h.left i hi), .inl hi⟩

end

theorem Consistent.isEmpty_iff_of_similar (h : g'.Consistent) (hsame : Similar g g') :
    g'.isEmpty = true ↔ ∀ i < g.nodes.size, g'.isRemoved i = true := by
  rw [h.isEmpty_iff]
  constructor
  · exact fun hall i _ => hall i
  · intro hall i
    by_cases hi : i < g.nodes.size
    · exact hall i hi
    · exact isRemoved_of_size_le (hsame.size_eq ▸ Nat.le_of_not_lt hi)

/-- While nodes are left, there are at most as many batches as nodes taken out. -/
def Paced (g : CallGraph) (batches : List Batch) (g' : CallGraph) : Prop :=
  g'.isEmpty = true ∨ batches.length + g'.left.card ≤ g.nodes.size

/-- What every run keeps. -/
theorem Run.scheduled {batches : List Batch} (hrun : Run g batches g') (hg : g.Consistent)
    (hnew : ∀ i < g.nodes.size, g.isRemoved i = false) :
    g'.Consistent ∧ Paced g batches g' ∧ Similar g g' ∧
      (batches.flatMap Batch.methods).Perm
        (g.methodsAt ((List.range g.nodes.size).filter g'.isRemoved)) := by
  induction hrun with
  | start =>
    refine ⟨hg, .inr ?_, Similar.refl g, ?_⟩
    · simpa [left] using Finset.card_filter_le (Finset.range g.nodes.size) fun i =>
        g.isRemoved i = false
    · rw [List.filter_eq_nil_iff.2 fun i hi => by simp [hnew i (List.mem_range.1 hi)]]
      simp [methodsAt]
  | @next batches g' g'' batch _ hnext ih =>
    obtain ⟨hconsistent, hpaced, hsame, hperm⟩ := ih
    obtain ⟨batch', rest, indices, hnext', hhands, hrest⟩ := hconsistent.exists_next
    obtain ⟨rfl, rfl⟩ : batch' = batch ∧ rest = g'' := by simpa [hnext] using hnext'.symm
    refine ⟨hrest, ?_, hsame.trans hhands.same, ?_⟩
    · by_cases hempty : g'.isEmpty = true
      · exact .inl (hrest.isEmpty_iff.2 fun i =>
          (hhands.removed i).2 (.inr (hconsistent.isEmpty_iff.1 hempty i)))
      · have hlt := hhands.card_left_lt (by simpa using hempty)
        have hle := hpaced.resolve_left hempty
        refine .inr ?_
        rw [List.length_append, List.length_singleton]
        omega
    · rw [List.flatMap_append, List.flatMap_singleton, hhands.methods, hsame.methodsAt]
      have hstep := hhands.perm_removed
      rw [hsame.size_eq] at hstep
      have hsplit := (hstep.filterMap fun i => g.nodes[i]?.map Node.method).symm
      rw [List.filterMap_append] at hsplit
      exact (hperm.append_right _).trans hsplit

/-- Handing out batch after batch never fails and hands out every method once, callees first. -/
theorem batches_callees_first (program : Program) (lens : Lens) (includes : Method → Bool)
    (batches : List Batch) (g : CallGraph) (h : Run (ofProgram program lens includes) batches g) :
    Scheduled (ofProgram program lens includes) batches g ∧
      ∃ batch g' indices, g.next = .ok (batch, g') ∧ HandsOut g batch g' indices := by
  obtain ⟨hconsistent, hpaced, hsame, hperm⟩ :=
    h.scheduled (consistent_ofProgram program lens includes) fun _ => isRemoved_ofProgram
  refine ⟨⟨hsame, hconsistent.degree, hperm, hconsistent.isEmpty_iff_of_similar hsame, ?_⟩, ?_⟩
  · intro hlength
    refine hpaced.elim id fun hle => ?_
    rw [isEmpty, decide_eq_true_eq, hconsistent.remaining]
    omega
  · obtain ⟨batch, g', indices, hnext, hhands, -⟩ := hconsistent.exists_next
    exact ⟨batch, g', indices, hnext, hhands⟩

def staticMethod (name : String) (callees : List String) : Method :=
  let id (name : String) : MethodId := ⟨⟨"p.A"⟩, name, ⟨.void, []⟩⟩
  { id := id name
    flags := { isStatic := true }
    code := some
      { registers := 0
        ins := 0
        instructions := callees.map (fun callee => .invoke .static (id callee) []) ++ [.ret none]
        tries := [] } }

/-- Two methods that call each other, one of them itself too, and one that calls the first. -/
def pingPong : Program where
  classes := [{
    type := ⟨"p.A"⟩
    flags := {}
    direct := [staticMethod "main" ["ping"], staticMethod "ping" ["pong", "pong"],
      staticMethod "pong" ["ping", "pong"]] }]

theorem batches_callees_first_pingPong :
    ∃ batches g, Run (ofProgram pingPong {} fun _ => true) batches g ∧
      batches.map (fun b => b.methods.map MethodId.name) = [["ping"], ["main"], ["pong"]] ∧
      Scheduled (ofProgram pingPong {} fun _ => true) batches g := by
  obtain ⟨steps, hsteps, hnames⟩ := exists_of_succeeds
    (x := (ofProgram pingPong {} fun _ => true).batchesUpTo 3)
    (p := fun steps => steps.map (fun b => b.1.methods.map MethodId.name) ==
      [["ping"], ["main"], ["pong"]]) (by cbv)
  obtain ⟨g, hrun⟩ := Run.start.append_batchesUpTo 3 hsteps
  refine ⟨_, g, hrun, ?_, (batches_callees_first pingPong {} (fun _ => true) _ g hrun).1⟩
  simpa [Function.comp_def] using beq_iff_eq.1 hnames

end BytecodeOpt.CallGraph
