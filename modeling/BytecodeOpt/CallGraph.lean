import BytecodeOpt.Lens
import BytecodeOpt.Program.Hierarchy

/-!
# Call graphs

Who calls whom among the methods with code.  The nodes are the methods in program order; an edge
stands for all calls from one method to another.
-/

namespace BytecodeOpt

inductive CallTarget where
  | resolved (method : MethodId)
  | dispatched (declared : MethodId) (possible : List MethodId)
  | external (method : MethodId)
  deriving DecidableEq, Repr, Inhabited

namespace CallTarget

def isResolved : CallTarget → Bool
  | .external _ => false
  | _ => true

def methods : CallTarget → List MethodId
  | .resolved method => [method]
  | .dispatched _ possible => possible
  | .external _ => []

def resolve (program : Program) (kind : InvokeKind) (method : MethodId) : CallTarget :=
  match program.possibleTargets kind method with
  | [] => .external method
  | [target] => .resolved target
  | targets => .dispatched method targets

end CallTarget

namespace CallGraph

structure Site where
  offset : Nat
  kind : InvokeKind
  target : CallTarget
  deriving DecidableEq, Repr, Inhabited

def Site.isPolymorphic (s : Site) : Bool := 1 < s.target.methods.length

structure Edge where
  callee : Nat
  weight : Nat
  firstSite : Nat
  isBroken : Bool := false
  deriving DecidableEq, Repr, Inhabited

structure Node where
  method : MethodId
  sites : List Site
  edges : List Edge := []
  /-- The nodes with an edge to this one, in ascending order. -/
  callers : List Nat := []
  outDegree : Nat := 0
  isRemoved : Bool := false
  deriving DecidableEq, Repr, Inhabited

def Node.isLeaf (n : Node) : Bool := n.edges.isEmpty

end CallGraph

structure CallGraph where
  nodes : Array CallGraph.Node
  remaining : Nat
  deriving DecidableEq, Repr, Inhabited

namespace CallGraph

def indexIn? (nodes : List Node) (method : MethodId) : Option Nat :=
  (nodes.zipIdx.reverse.find? fun (n, _) => n.method = method).map Prod.snd

def addCall (callee offset : Nat) : List Edge → List Edge
  | [] => [{ callee, weight := 1, firstSite := offset }]
  | e :: rest =>
    if callee < e.callee then { callee, weight := 1, firstSite := offset } :: e :: rest
    else if callee = e.callee then { e with weight := e.weight + 1 } :: rest
    else e :: addCall callee offset rest

def edgesOf (indexOf? : MethodId → Option Nat) (sites : List Site) : List Edge :=
  sites.foldl (fun edges site =>
    (site.target.methods.filterMap indexOf?).foldl (fun edges callee =>
      addCall callee site.offset edges) edges) []

def sitesOf (program : Program) (lens : Lens) (code : Code) : List Site :=
  code.invokes.map fun (offset, kind, method) =>
    { offset, kind, target := .resolve program kind (lens.lookupMethod method) }

def nodeOf? (program : Program) (lens : Lens) (includes : Method → Bool) (m : Method) :
    Option Node := do
  let code ← m.code
  guard (!m.isAbstractOrNative && includes m)
  return { method := m.id, sites := sitesOf program lens code }

def Node.withEdges (n : Node) (edges : List Edge) : Node :=
  { n with edges, outDegree := edges.length }

def callersAmong (nodes : Array Node) (index : Nat) : List Nat :=
  (List.range nodes.size).filter fun i =>
    nodes[i]?.any fun n => n.edges.any (·.callee = index)

def ofProgram (program : Program) (lens : Lens) (includes : Method → Bool) : CallGraph :=
  let nodes := program.methods.filterMap (nodeOf? program lens includes)
  let linked := (nodes.map fun n => n.withEdges (edgesOf (indexIn? nodes) n.sites)).toArray
  { nodes := linked.mapIdx fun i n => { n with callers := callersAmong linked i }
    remaining := nodes.length }

def indexOf? (g : CallGraph) (method : MethodId) : Option Nat := indexIn? g.nodes.toList method

def node? (g : CallGraph) (method : MethodId) : Option Node :=
  (g.indexOf? method).bind (g.nodes[·]?)

def contains (g : CallGraph) (method : MethodId) : Bool := (g.indexOf? method).isSome

def isRemoved (g : CallGraph) (index : Nat) : Bool := g.nodes[index]?.all Node.isRemoved

def isEmpty (g : CallGraph) : Bool := g.remaining = 0

def methodsAt (g : CallGraph) (indices : List Nat) : List MethodId :=
  indices.filterMap fun i => g.nodes[i]?.map Node.method

def callees (g : CallGraph) (method : MethodId) : List MethodId :=
  g.methodsAt (((g.node? method).map Node.edges).getD [] |>.map Edge.callee)

def callersOf (g : CallGraph) (index : Nat) : List Nat :=
  (g.nodes[index]?.map Node.callers).getD []

def callers (g : CallGraph) (method : MethodId) : List MethodId :=
  g.methodsAt (((g.indexOf? method).map g.callersOf).getD [])

def sites (g : CallGraph) (method : MethodId) : List Site :=
  ((g.node? method).map Node.sites).getD []

def isBroken (g : CallGraph) (caller callee : MethodId) : Bool :=
  match g.node? caller, g.indexOf? callee with
  | some node, some index => node.edges.any fun e => e.callee = index && e.isBroken
  | _, _ => false

/-! ## Statistics -/

structure Statistics where
  methods : Nat
  edges : Nat
  sites : Nat
  dispatchedSites : Nat
  resolvedSites : Nat
  polymorphicSites : Nat
  brokenEdges : Nat
  remaining : Nat
  deriving DecidableEq, Repr, Inhabited

def statistics (g : CallGraph) : Statistics :=
  let sites := g.nodes.toList.flatMap Node.sites
  let edges := g.nodes.toList.flatMap Node.edges
  { methods := g.nodes.size
    edges := edges.length
    sites := sites.length
    dispatchedSites := sites.countP fun s => s.kind.isDispatched
    resolvedSites := sites.countP fun s => s.target.isResolved
    polymorphicSites := sites.countP Site.isPolymorphic
    brokenEdges := edges.countP Edge.isBroken
    remaining := g.remaining }

namespace Statistics

def toList (s : Statistics) : List Nat :=
  [s.methods, s.edges, s.sites, s.dispatchedSites, s.resolvedSites, s.polymorphicSites,
    s.brokenEdges,
    s.remaining]

def resolutionRate (s : Statistics) : Float :=
  if s.sites = 0 then 100 else Float.ofNat s.resolvedSites / Float.ofNat s.sites * 100

end Statistics

end CallGraph

end BytecodeOpt
