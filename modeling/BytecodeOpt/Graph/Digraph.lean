/-!
# Directed graphs

Nodes are numbered from zero; a graph lists the successors of each.
-/

namespace BytecodeOpt

structure Digraph where
  adjacency : Array (List Nat)
  deriving DecidableEq, Repr, Inhabited

namespace Digraph

def size (g : Digraph) : Nat := g.adjacency.size

def successors (g : Digraph) (node : Nat) : List Nat := g.adjacency.getD node []

/-- The graph in which only the nodes that satisfy `keep` have edges, and only among themselves. -/
def restrict (g : Digraph) (keep : Nat → Bool) : Digraph where
  adjacency := g.adjacency.mapIdx fun node next => if keep node then next.filter keep else []

end Digraph

end BytecodeOpt
