import BytecodeOpt.Graph.DepthFirst

/-!
# Dominators

A node dominates another when every path from the entry to the other passes through it.  The
dominators of a node are found by climbing in a tree of immediate dominators, and the tree by going
through the nodes in reverse postorder, joining the predecessors of each, until nothing changes.
-/

namespace BytecodeOpt

structure Dominators where
  entry : Nat
  order : List Nat
  /-- The immediate dominators; the entry and what cannot be reached have none. -/
  parents : Array (Option Nat)
  tree : Array (List Nat)
  deriving Repr, Inhabited

namespace Dominators

/-- The place of each node in an order; one that is not listed has the greatest number. -/
def places (size : Nat) (order : List Nat) : Array Nat :=
  order.zipIdx.foldl (fun places e => places.setIfInBounds e.1 e.2)
    (Array.replicate size 18446744073709551615)

/-- For each node, the nodes of an order with an edge to it, once for each edge. -/
def predecessors (g : Digraph) (order : List Nat) : Array (List Nat) :=
  (Array.range g.size).map fun node =>
    order.flatMap fun p => ((g.successors p).filter (· = node)).map fun _ => p

/-- Climbs from the later of two nodes until they meet.  The sum of their places bounds the number
of steps. -/
def intersect (parents : Array (Option Nat)) (places : Array Nat) : Nat → Nat → Nat → Nat
  | 0, a, _ => a
  | n + 1, a, b =>
    if places.getD b 0 < places.getD a 0 then
      match parents.getD a none with
      | some p => intersect parents places n p b
      | none => b
    else if places.getD a 0 < places.getD b 0 then
      match parents.getD b none with
      | some p => intersect parents places n a p
      | none => a
    else a

/-- Joins one more predecessor, unless it has no parent yet. -/
def join (steps : Nat) (places : Array Nat) (parents : Array (Option Nat)) (found : Option Nat)
    (p : Nat) : Option Nat :=
  if (parents.getD p none).isNone then found
  else
    match found with
    | none => some p
    | some current => some (intersect parents places steps p current)

def adopt (steps : Nat) (places : Array Nat) (preds : Array (List Nat))
    (s : Array (Option Nat) × Bool) (node : Nat) : Array (Option Nat) × Bool :=
  let found := (preds.getD node []).foldl (join steps places s.1) none
  if found.isSome && s.1.getD node none != found then (s.1.setIfInBounds node found, true) else s

def sweep (steps : Nat) (places : Array Nat) (preds : Array (List Nat)) (order : List Nat)
    (parents : Array (Option Nat)) : Array (Option Nat) × Bool :=
  (order.drop 1).foldl (adopt steps places preds) (parents, false)

/-- Sweeps until nothing changes.  A change moves a node to a parent with an earlier place, so the
square of the size bounds the number of sweeps. -/
def settle (steps : Nat) (places : Array Nat) (preds : Array (List Nat)) (order : List Nat) :
    Nat → Array (Option Nat) → Array (Option Nat)
  | 0, parents => parents
  | n + 1, parents =>
    let next := sweep steps places preds order parents
    if next.2 then settle steps places preds order n next.1 else next.1

/-- The entry is its own parent while the tree settles. -/
def settled (g : Digraph) (entry sweeps steps : Nat) : Array (Option Nat) :=
  let order := g.reversePostorder entry
  settle steps (places g.size order) (predecessors g order) order sweeps
    ((Array.replicate g.size none).setIfInBounds entry (some entry))

def ofGraph (g : Digraph) (entry : Nat) : Dominators :=
  let parents := (settled g entry (g.size * g.size + 1) (2 * g.size)).setIfInBounds entry none
  { entry
    order := g.reversePostorder entry
    parents
    tree := (Array.range g.size).map fun node =>
      (List.range g.size).filter fun b => parents.getD b none = some node }

def immediate? (d : Dominators) (node : Nat) : Option Nat := d.parents.getD node none

def isReachable (d : Dominators) (node : Nat) :
    Bool := node == d.entry || (d.immediate? node).isSome

def isAbove (d : Dominators) (a : Nat) : Nat → Nat → Bool
  | 0, _ => false
  | n + 1, b =>
    b == a || match d.immediate? b with
      | some p => d.isAbove a n p
      | none => false

/-- No node is passed twice on the way up. -/
def dominates (d : Dominators) (a b : Nat) : Bool := d.isAbove a (d.parents.size + 1) b

def strictlyDominates (d : Dominators) (a b : Nat) : Bool := a != b && d.dominates a b

def children (d : Dominators) (node : Nat) : List Nat := d.tree.getD node []

end Dominators

end BytecodeOpt
