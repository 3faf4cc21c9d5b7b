import BytecodeOpt.CallGraph.Schedule
import Mathlib.Data.Finset.Card

/-!
# The counters of a call graph

A graph carries the number of nodes left and, for each node, the number of edges it still waits for.
Both are kept up step by step: taking a node out and setting edges aside each correct them, and
`Consistent` says that they never drift from what they count, nor the lists of callers from the
edges.
-/

namespace BytecodeOpt.CallGraph

variable {g : CallGraph} {i : Nat} {k : Nat} {n : Node}

/-! ## Nodes left -/

def left (g : CallGraph) : Finset Nat :=
  (Finset.range g.nodes.size).filter fun i => g.isRemoved i = false

theorem isRemoved_of_getElem? (h : g.nodes[i]? = some n) : g.isRemoved i = n.isRemoved := by
  simp [isRemoved, h]

theorem isRemoved_of_size_le (h : g.nodes.size ≤ i) : g.isRemoved i = true := by
  simp [isRemoved, Array.getElem?_eq_none h]

theorem lt_size_of_not_isRemoved (h : g.isRemoved i = false) : i < g.nodes.size := by
  by_contra hle
  simp [isRemoved_of_size_le (Nat.le_of_not_lt hle)] at h

theorem mem_left : i ∈ g.left ↔ g.isRemoved i = false := by
  simp only [left, Finset.mem_filter, Finset.mem_range, and_iff_right_iff_imp]
  exact lt_size_of_not_isRemoved

/-! ## Consistency -/

structure Consistent (g : CallGraph) : Prop where
  remaining : g.remaining = g.left.card
  degree : ∀ (i : Nat) (n : Node), g.nodes[i]? = some n → n.isRemoved = false →
    n.outDegree = (g.liveEdges n).length
  distinct : ∀ (i : Nat) (n : Node), g.nodes[i]? = some n → (n.edges.map Edge.callee).Nodup
  callee_lt : ∀ (i : Nat) (n : Node), g.nodes[i]? = some n → ∀ e ∈ n.edges, e.callee < g.nodes.size
  nodup_callers : ∀ k, (g.callersOf k).Nodup
  callers : ∀ i k, i ∈ g.callersOf k ↔
    ∃ n : Node, g.nodes[i]? = some n ∧ k ∈ n.edges.map Edge.callee

theorem Consistent.isEmpty_iff (h : g.Consistent) :
    g.isEmpty = true ↔ ∀ i, g.isRemoved i = true := by
  rw [isEmpty, decide_eq_true_eq, h.remaining, Finset.card_eq_zero,
    Finset.eq_empty_iff_forall_notMem]
  simp [mem_left]

theorem Consistent.exists_left (h : g.Consistent) (hne : g.isEmpty = false) :
    ∃ i, g.isRemoved i = false := by
  by_contra hnone
  rw [h.isEmpty_iff.2 (by simpa using hnone)] at hne
  simp at hne

/-! ## Taking a node out -/

/-- What becomes of a node that waits for another when it is released so many times. -/
def Node.released (n : Node) (index times : Nat) : Node :=
  if !n.isRemoved && n.waitsFor index then { n with outDegree := n.outDegree - times } else n

theorem getElem?_foldl_release (callers : List Nat) (nodes : Array Node) :
    (callers.foldl (release k) nodes)[i]? = nodes[i]?.map (·.released k (callers.count i)) := by
  induction callers generalizing nodes with
  | nil =>
    have hid : ∀ n : Node, n.released k 0 = n := fun n => by simp [Node.released]
    simp [hid]
  | cons c callers ih =>
    rw [List.foldl_cons, ih, release, Array.getElem?_modify, List.count_cons]
    by_cases hc : c = i
    · subst hc
      simp only [if_true, beq_self_eq_true, Option.map_map]
      congr 1
      funext n
      simp only [Function.comp_apply, Node.released, Node.waitsFor]
      grind
    · simp [hc]

/-- What becomes of a node when another, or the node itself, is taken out. -/
def Node.afterRemoval (n : Node) (i removed times : Nat) : Node :=
  if i = removed then { n with isRemoved := true } else n.released removed times

theorem getElem?_removeNode (k i : Nat) :
    (g.removeNode k).nodes[i]? =
      g.nodes[i]?.map (·.afterRemoval i k ((g.callersOf k).count i)) := by
  rw [removeNode, getElem?_foldl_release, Array.getElem?_modify]
  by_cases hi : k = i
  · simp [hi, Node.afterRemoval, Node.released, Function.comp_def]
  · simp [hi, Ne.symm hi, Node.afterRemoval]

theorem size_removeNode (k : Nat) : (g.removeNode k).nodes.size = g.nodes.size := by
  have hsize : ∀ (callers : List Nat) (nodes : Array Node),
      (callers.foldl (release k) nodes).size = nodes.size := by
    intro callers nodes
    induction callers generalizing nodes with
    | nil => rfl
    | cons c callers ih => rw [List.foldl_cons, ih, release, Array.size_modify]
  rw [removeNode, hsize, Array.size_modify]

namespace Node

variable {n : Node} {i k times : Nat}

theorem afterRemoval_cases : n.afterRemoval i k times = { n with isRemoved := true } ∨
    ∃ degree, n.afterRemoval i k times = { n with outDegree := degree } := by
  unfold afterRemoval released
  split
  · exact .inl rfl
  · exact .inr (by split <;> exact ⟨_, rfl⟩)

@[simp] theorem edges_afterRemoval : (n.afterRemoval i k times).edges = n.edges := by
  rcases afterRemoval_cases (n := n) with h | ⟨degree, h⟩ <;> rw [h]

@[simp] theorem callers_afterRemoval : (n.afterRemoval i k times).callers = n.callers := by
  rcases afterRemoval_cases (n := n) with h | ⟨degree, h⟩ <;> rw [h]

@[simp] theorem method_afterRemoval : (n.afterRemoval i k times).method = n.method := by
  rcases afterRemoval_cases (n := n) with h | ⟨degree, h⟩ <;> rw [h]

@[simp] theorem sites_afterRemoval : (n.afterRemoval i k times).sites = n.sites := by
  rcases afterRemoval_cases (n := n) with h | ⟨degree, h⟩ <;> rw [h]

theorem isRemoved_afterRemoval :
    (n.afterRemoval i k times).isRemoved = (i == k || n.isRemoved) := by
  unfold afterRemoval released
  by_cases hi : i = k
  · simp [hi]
  · grind

end Node

theorem callersOf_removeNode (k j : Nat) : (g.removeNode k).callersOf j = g.callersOf j := by
  rw [callersOf, getElem?_removeNode, Option.map_map, callersOf]
  congr 2
  funext n
  exact Node.callers_afterRemoval

theorem isRemoved_removeNode {i k : Nat} :
    (g.removeNode k).isRemoved i = (i == k || g.isRemoved i) := by
  simp only [isRemoved, getElem?_removeNode]
  cases g.nodes[i]? with
  | none => simp
  | some n => simp [Node.isRemoved_afterRemoval]

theorem left_removeNode (k : Nat) : (g.removeNode k).left = g.left.erase k := by
  ext i
  rw [Finset.mem_erase, mem_left, mem_left, isRemoved_removeNode]
  by_cases hi : i = k
  · simp [hi]
  · simp [hi]

theorem liveEdges_removeNode {n m : Node} (hedges : m.edges = n.edges) :
    (g.removeNode k).liveEdges m = (g.liveEdges n).filter (·.callee != k) := by
  rw [liveEdges, liveEdges, hedges, List.filter_filter]
  refine List.filter_congr fun e _ => ?_
  rw [isRemoved_removeNode]
  cases e.isBroken <;> cases g.isRemoved e.callee <;> cases hk : e.callee == k <;> simp [bne, hk]

theorem nodup_liveEdges (h : (n.edges.map Edge.callee).Nodup) :
    ((g.liveEdges n).map Edge.callee).Nodup :=
  h.sublist (List.filter_sublist.map _)

theorem waitsFor_iff (hk : g.isRemoved k = false) :
    n.waitsFor k = true ↔ k ∈ (g.liveEdges n).map Edge.callee := by
  simp only [Node.waitsFor, List.any_eq_true, Bool.and_eq_true, beq_iff_eq, Bool.not_eq_true',
    liveEdges, List.mem_map, List.mem_filter]
  constructor
  · grind
  · grind

/-- One edge less is waited for if there was one to the node taken out, and as many if not. -/
theorem length_liveEdges_removeNode {n m : Node} (hedges : m.edges = n.edges)
    (hdistinct : (n.edges.map Edge.callee).Nodup) (hk : g.isRemoved k = false) :
    ((g.removeNode k).liveEdges m).length =
      if n.waitsFor k then (g.liveEdges n).length - 1 else (g.liveEdges n).length := by
  have herase : ((g.removeNode k).liveEdges m).map Edge.callee =
      ((g.liveEdges n).map Edge.callee).erase k := by
    rw [liveEdges_removeNode hedges, (nodup_liveEdges hdistinct).erase_eq_filter, List.filter_map]
    rfl
  rw [← List.length_map (f := Edge.callee), herase]
  by_cases hwaits : n.waitsFor k = true
  · rw [if_pos hwaits, List.length_erase_of_mem ((waitsFor_iff hk).1 hwaits), List.length_map]
  · rw [if_neg hwaits, List.erase_of_not_mem fun hc => hwaits ((waitsFor_iff hk).2 hc),
      List.length_map]

theorem Consistent.removeNode (h : g.Consistent) (hk : g.isRemoved k = false) :
    (g.removeNode k).Consistent := by
  constructor
  case remaining =>
    rw [left_removeNode, Finset.card_erase_of_mem (mem_left.2 hk), ← h.remaining]
    rfl
  case degree =>
    intro i m hm hleft
    rw [getElem?_removeNode] at hm
    obtain ⟨n, hn, rfl⟩ := Option.map_eq_some_iff.1 hm
    rw [Node.isRemoved_afterRemoval, Bool.or_eq_false_iff, beq_eq_false_iff_ne] at hleft
    rw [length_liveEdges_removeNode Node.edges_afterRemoval (h.distinct i n hn) hk,
      ← h.degree i n hn hleft.2]
    unfold Node.afterRemoval Node.released
    rw [if_neg hleft.1, hleft.2]
    by_cases hwaits : n.waitsFor k = true
    · have hcallee : k ∈ n.edges.map Edge.callee := by
        obtain ⟨e, he, heq⟩ := List.any_eq_true.1 hwaits
        exact List.mem_map.2 ⟨e, he, beq_iff_eq.1 (Bool.and_eq_true_iff.1 heq).1⟩
      rw [List.count_eq_one_of_mem (h.nodup_callers k) ((h.callers i k).2 ⟨n, hn, hcallee⟩)]
      simp [hwaits]
    · simp [hwaits]
  case distinct =>
    intro i m hm
    rw [getElem?_removeNode] at hm
    obtain ⟨n, hn, rfl⟩ := Option.map_eq_some_iff.1 hm
    simpa using h.distinct i n hn
  case callee_lt =>
    intro i m hm e he
    rw [getElem?_removeNode] at hm
    obtain ⟨n, hn, rfl⟩ := Option.map_eq_some_iff.1 hm
    rw [size_removeNode]
    exact h.callee_lt i n hn e (by simpa using he)
  case nodup_callers =>
    intro j
    rw [callersOf_removeNode]
    exact h.nodup_callers j
  case callers =>
    intro i j
    rw [callersOf_removeNode, h.callers, getElem?_removeNode]
    simp

/-! ## Setting edges aside -/

def Node.setAside (n : Node) (g : CallGraph) : Node :=
  { n with
    edges := n.edges.map fun e => if g.isRemoved e.callee then e else { e with isBroken := true }
    outDegree := n.outDegree - (g.liveEdges n).length }

theorem getElem?_breakEdges (k i : Nat) :
    (g.breakEdges k).nodes[i]? =
      g.nodes[i]?.map fun n => if i = k then n.setAside g else n := by
  simp only [breakEdges, Array.getElem?_modify]
  by_cases hi : i = k
  · subst hi
    simp [Node.setAside]
  · simp [hi, Ne.symm hi]

@[simp] theorem size_breakEdges (k : Nat) : (g.breakEdges k).nodes.size = g.nodes.size := by
  simp [breakEdges]

@[simp] theorem isRemoved_breakEdges (k i : Nat) :
    (g.breakEdges k).isRemoved i = g.isRemoved i := by
  simp only [isRemoved, getElem?_breakEdges]
  cases g.nodes[i]? with
  | none => rfl
  | some n =>
    by_cases hi : i = k
    · simp [hi, Node.setAside]
    · simp [hi]

theorem left_breakEdges (k : Nat) : (g.breakEdges k).left = g.left := by
  ext i
  rw [mem_left, mem_left, isRemoved_breakEdges]

theorem liveEdges_breakEdges (k : Nat) (n : Node) :
    (g.breakEdges k).liveEdges n = g.liveEdges n := by
  simp [liveEdges]

theorem liveEdges_setAside (n : Node) : g.liveEdges (n.setAside g) = [] := by
  simp only [liveEdges, Node.setAside, List.filter_eq_nil_iff, List.mem_map]
  rintro e ⟨e, -, rfl⟩
  by_cases hremoved : g.isRemoved e.callee = true
  · simp [hremoved]
  · simp [hremoved]

theorem map_callee_setAside (n : Node) :
    (n.setAside g).edges.map Edge.callee = n.edges.map Edge.callee := by
  simp only [Node.setAside, List.map_map]
  refine List.map_congr_left fun e _ => ?_
  simp only [Function.comp_apply]
  split <;> rfl

theorem callersOf_breakEdges (k j : Nat) : (g.breakEdges k).callersOf j = g.callersOf j := by
  rw [callersOf, getElem?_breakEdges, Option.map_map, callersOf]
  congr 2
  funext n
  simp only [Function.comp_apply]
  split <;> rfl

theorem Consistent.breakEdges (h : g.Consistent) (k : Nat) : (g.breakEdges k).Consistent := by
  constructor
  case remaining => exact h.remaining.trans (congrArg Finset.card (left_breakEdges k).symm)
  case degree =>
    intro i m hm hleft
    rw [getElem?_breakEdges] at hm
    obtain ⟨n, hn, rfl⟩ := Option.map_eq_some_iff.1 hm
    rw [liveEdges_breakEdges]
    by_cases hi : i = k
    · rw [if_pos hi] at hleft ⊢
      have hdegree : n.outDegree = (g.liveEdges n).length := h.degree i n hn hleft
      rw [liveEdges_setAside, List.length_nil]
      simp [Node.setAside, hdegree]
    · rw [if_neg hi] at hleft ⊢
      exact h.degree i n hn hleft
  case distinct =>
    intro i m hm
    rw [getElem?_breakEdges] at hm
    obtain ⟨n, hn, rfl⟩ := Option.map_eq_some_iff.1 hm
    by_cases hi : i = k
    · rw [if_pos hi, map_callee_setAside]
      exact h.distinct i n hn
    · rw [if_neg hi]
      exact h.distinct i n hn
  case callee_lt =>
    intro i m hm e he
    rw [getElem?_breakEdges] at hm
    obtain ⟨n, hn, rfl⟩ := Option.map_eq_some_iff.1 hm
    rw [size_breakEdges]
    have hcallee : e.callee ∈ n.edges.map Edge.callee := by
      by_cases hi : i = k
      · rw [if_pos hi] at he
        exact map_callee_setAside n ▸ List.mem_map_of_mem he
      · grind
    obtain ⟨e', he', heq⟩ := List.mem_map.1 hcallee
    exact heq ▸ h.callee_lt i n hn e' he'
  case nodup_callers =>
    intro j
    rw [callersOf_breakEdges]
    exact h.nodup_callers j
  case callers =>
    intro i j
    have hsame : ∀ n : Node, (if i = k then n.setAside g else n).edges.map Edge.callee =
        n.edges.map Edge.callee := fun n => by
      split
      · exact map_callee_setAside n
      · rfl
    rw [callersOf_breakEdges, h.callers, getElem?_breakEdges]
    simp only [Option.map_eq_some_iff, exists_exists_and_eq_and, hsame]

end BytecodeOpt.CallGraph
