import BytecodeOpt.Graph.Digraph
import BytecodeOpt.Total

/-!
# Strongly connected components

Two nodes are in one component when each reaches the other.  A depth-first search numbers the nodes
as it enters them and keeps those on a stack whose component is not complete.  It notes for each
node the lowest number on the stack that it has seen from there; a node that has seen nothing lower
than itself completes a component when the search leaves it.
-/

namespace BytecodeOpt.Digraph

structure Tarjan where
  index : Array (Option Nat)
  lowlink : Array Nat
  onStack : Array Bool
  stack : List Nat := []
  count : Nat := 0
  found : List (List Nat) := []
  deriving Repr, Inhabited

namespace Tarjan

def start (g : Digraph) : Tarjan where
  index := Array.replicate g.size none
  lowlink := Array.replicate g.size 0
  onStack := Array.replicate g.size false

/-- A number that is no node counts as entered. -/
def indexOf? (s : Tarjan) (node : Nat) : Option Nat := s.index.getD node (some 0)

def low (s : Tarjan) (node : Nat) : Nat := s.lowlink.getD node 0

def enter (s : Tarjan) (node : Nat) : Tarjan :=
  { s with
    index := s.index.setIfInBounds node (some s.count)
    lowlink := s.lowlink.setIfInBounds node s.count
    onStack := s.onStack.setIfInBounds node true
    stack := node :: s.stack
    count := s.count + 1 }

def lower (s : Tarjan) (node seen : Nat) : Tarjan :=
  { s with lowlink := s.lowlink.setIfInBounds node (min (s.low node) seen) }

/-- Splits a stack behind a node. -/
def popTo (node : Nat) : List Nat → List Nat × List Nat
  | [] => ([], [])
  | top :: rest =>
    if top = node then ([top], rest) else (top :: (popTo node rest).1, (popTo node rest).2)

/-- Completes the component of a node; its members are listed in ascending order. -/
def close (s : Tarjan) (node : Nat) : Tarjan :=
  let (members, stack) := popTo node s.stack
  { s with
    onStack := members.foldl (fun onStack m => onStack.setIfInBounds m false) s.onStack
    stack
    found := s.found ++ [(List.range s.index.size).filter members.contains] }

def closeIfLowest (s : Tarjan) (node : Nat) : Tarjan :=
  if s.indexOf? node = some (s.low node) then s.close node else s

/-- The nodes that the search is in, the last one entered first, each with the successors it has
still to follow. -/
abbrev Frames := List (Nat × List Nat)

def step (g : Digraph) (s : Tarjan) : Frames → Tarjan × Frames
  | [] => (s, [])
  | (v, w :: rest) :: frames =>
    match s.indexOf? w with
    | none => (s.enter w, (w, g.successors w) :: (v, rest) :: frames)
    | some i => (if s.onStack.getD w false then s.lower v i else s, (v, rest) :: frames)
  | (v, []) :: (parent, rest) :: frames =>
    ((s.lower parent (s.low v)).closeIfLowest v, (parent, rest) :: frames)
  | [(v, [])] => (s.closeIfLowest v, [])

def run (g : Digraph) : Nat → Tarjan → Frames → Tarjan
  | _, s, [] => s
  | 0, s, _ => s
  | n + 1, s, frames => run g n (step g s frames).1 (step g s frames).2

end Tarjan

/-- Each node is entered and left once, and each edge followed once. -/
def connect (g : Digraph) (s : Tarjan) (root : Nat) : Tarjan :=
  match s.indexOf? root with
  | some _ => s
  | none =>
    Tarjan.run g (totalOf (fun node => (g.successors node).length + 2) (List.range g.size))
      (s.enter root) [(root, g.successors root)]

/-- The components of the nodes that satisfy `keep`, paths leading through such nodes only.  A
component is complete when all that it leads to are. -/
def components (g : Digraph) (keep : Nat → Bool) : List (List Nat) :=
  let inner := g.restrict keep
  (((List.range g.size).filter keep).foldl inner.connect (.start inner)).found

end BytecodeOpt.Digraph
