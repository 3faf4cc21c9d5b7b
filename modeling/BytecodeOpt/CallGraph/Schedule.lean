import BytecodeOpt.CallGraph
import BytecodeOpt.Graph.Components
import BytecodeOpt.Total

/-!
# Order of processing

Methods are handed out in batches, callees before callers.  When only cycles are left, the calls of
one method are set aside: of the methods that call nothing outside their own cycle, one with the
fewest calls.
-/

namespace BytecodeOpt.CallGraph

inductive Fault where
  | noLeaf (remaining : Nat)
  | noBottom (remaining : Nat)
  deriving DecidableEq, Repr, Inhabited

def Fault.message : Fault → String
  | .noLeaf remaining =>
    s!"Call graph error - no leaf after breaking cycles, {remaining} methods remain"
  | .noBottom remaining =>
    s!"Call graph error - no bottom component among {remaining} remaining methods"

structure Batch where
  methods : List MethodId := []
  brokeCycle : Bool := false
  deriving DecidableEq, Repr, Inhabited

def liveEdges (g : CallGraph) (n : Node) : List Edge :=
  n.edges.filter fun e => !e.isBroken && !g.isRemoved e.callee

def leaves (g : CallGraph) : List Nat :=
  (List.range g.nodes.size).filter fun i =>
    g.nodes[i]?.any fun n => !n.isRemoved && n.outDegree == 0

def Node.waitsFor (n : Node) (index : Nat) : Bool :=
  n.edges.any fun e => e.callee == index && !e.isBroken

/-- A caller that is left and waits for a node has one edge less to wait for. -/
def release (index : Nat) (nodes : Array Node) (caller : Nat) : Array Node :=
  nodes.modify caller fun n =>
    if !n.isRemoved && n.waitsFor index then { n with outDegree := n.outDegree - 1 } else n

/-- Takes a node out and releases its callers. -/
def removeNode (g : CallGraph) (index : Nat) : CallGraph :=
  { nodes := (g.callersOf index).foldl (release index)
      (g.nodes.modify index fun n => { n with isRemoved := true })
    remaining := g.remaining - 1 }

def remove (g : CallGraph) (indices : List Nat) : CallGraph := indices.foldl removeNode g

def liveGraph (g : CallGraph) : Digraph :=
  ⟨g.nodes.map fun n => (g.liveEdges n).map Edge.callee⟩

def liveWeight (g : CallGraph) (index : Nat) : Nat :=
  (g.nodes[index]?.map fun n => totalOf Edge.weight (g.liveEdges n)).getD 0

def bottoms (g : CallGraph) : List (List Nat) :=
  let live := g.liveGraph
  (live.components fun i => !g.isRemoved i).filter fun members =>
    members.all fun m => (live.successors m).all members.contains

def isCheaper (a b : Nat × Nat) : Bool := a.1 < b.1 || (a.1 = b.1 && a.2 < b.2)

def keepCheaper (best : Option (Nat × Nat)) (c : Nat × Nat) : Option (Nat × Nat) :=
  match best with
  | some b => if isCheaper c b then some c else some b
  | none => some c

def breaker? (g : CallGraph) : Option Nat :=
  let candidates := g.bottoms.flatten.map fun i => (g.liveWeight i, i)
  (candidates.foldl keepCheaper none).map Prod.snd

def breakEdges (g : CallGraph) (index : Nat) : CallGraph :=
  { g with nodes := g.nodes.modify index fun n =>
      { n with
        edges := n.edges.map fun e =>
          if g.isRemoved e.callee then e else { e with isBroken := true }
        outDegree := n.outDegree - (g.liveEdges n).length } }

def next (g : CallGraph) : Except Fault (Batch × CallGraph) :=
  if g.isEmpty then .ok ({}, g)
  else
    match g.leaves with
    | _ :: _ => .ok ({ methods := g.methodsAt g.leaves }, g.remove g.leaves)
    | [] =>
      match g.breaker? with
      | none => .error (.noBottom g.remaining)
      | some index =>
        let g := g.breakEdges index
        if g.leaves.isEmpty then .error (.noLeaf g.remaining)
        else .ok ({ methods := g.methodsAt g.leaves, brokeCycle := true }, g.remove g.leaves)

def advance (g : CallGraph) : Nat → Except Fault CallGraph
  | 0 => .ok g
  | batches + 1 => do
    let (_, g) ← g.next
    g.advance batches

/-- The next batches, at most so many and only until the graph is empty, each with the graph it
leaves. -/
def batchesUpTo (g : CallGraph) : Nat → Except Fault (List (Batch × CallGraph))
  | 0 => .ok []
  | batches + 1 =>
    if g.isEmpty then .ok []
    else do
      let (batch, rest) ← g.next
      return (batch, rest) :: (← rest.batchesUpTo batches)

/-- All batches.  Every batch has a method, so there are no more batches than methods. -/
def batches (g : CallGraph) : Except Fault (List (Batch × CallGraph)) := g.batchesUpTo g.remaining

end BytecodeOpt.CallGraph
