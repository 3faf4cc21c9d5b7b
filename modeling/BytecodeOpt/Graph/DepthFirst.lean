import BytecodeOpt.Graph.Digraph

/-!
# Depth-first search

A search marks the nodes it has entered and puts each node in front of the order when it leaves it,
so the order of a whole search is reverse postorder.
-/

namespace BytecodeOpt.Digraph

structure Search where
  entered : Array Bool
  order : List Nat
  deriving DecidableEq, Repr, Inhabited

def Search.hasEntered (s : Search) (node : Nat) : Bool := s.entered.getD node true

def Search.enter (s : Search) (node : Nat) : Search :=
  { s with entered := s.entered.setIfInBounds node true }

def Search.leave (s : Search) (node : Nat) : Search := { s with order := node :: s.order }

def Search.start (g : Digraph) : Search := ⟨Array.replicate g.size false, []⟩

def visit (g : Digraph) : Nat → Search → Nat → Search
  | 0, s, _ => s
  | depth + 1, s, node =>
    if s.hasEntered node then s
    else ((g.successors node).foldl (visit g depth) (s.enter node)).leave node

/-- A path without repetition is shorter than the graph, so the size is depth enough. -/
def explore (g : Digraph) (s : Search) (node : Nat) : Search := g.visit g.size s node

def reversePostorder (g : Digraph) (start : Nat) : List Nat :=
  (g.explore (Search.start g) start).order

def reached (g : Digraph) (start : Nat) : Array Bool :=
  (g.explore (Search.start g) start).entered

end BytecodeOpt.Digraph
