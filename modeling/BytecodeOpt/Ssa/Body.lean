import BytecodeOpt.Graph.Dominators
import BytecodeOpt.Ssa.Block

/-!
# Bodies

A method body as a graph of blocks; block 0 is the entry.
-/

namespace BytecodeOpt.Ssa

structure Body where
  method : MethodId
  blocks : Array Block := #[{}]
  values : Array ValueType := #[]
  isSsa : Bool := true
  deriving DecidableEq, Repr, Inhabited

inductive DefSite where
  | phi (block : BlockId)
  | op (block : BlockId) (index : Nat)
  deriving DecidableEq, Repr, Inhabited

def DefSite.block : DefSite → BlockId
  | .phi block => block
  | .op block _ => block

namespace Body

/-- A body always has its entry, if only an empty one. -/
def ofBlocks (method : MethodId) (values : List ValueType) (blocks : List Block) : Body where
  method
  values := values.toArray
  blocks := if blocks.isEmpty then #[{}] else blocks.toArray

def block (body : Body) (b : BlockId) : Block := body.blocks.getD b {}

def blockCount (body : Body) : Nat := body.blocks.size

def blockIds (body : Body) : List BlockId := List.range body.blocks.size

def modifyBlock (body : Body) (b : BlockId) (f : Block → Block) : Body :=
  { body with blocks := body.blocks.modify b f }

def mapBlocks (body : Body) (f : Block → Block) : Body :=
  { body with blocks := body.blocks.map f }

def addBlock (body : Body) (b : Block) : Body := { body with blocks := body.blocks.push b }

def valueCount (body : Body) : Nat := body.values.size

def valueType (body : Body) (v : Operand) : ValueType := body.values.getD v .reference

def addValue (body : Body) (type : ValueType) : Body :=
  { body with values := body.values.push type }

def setValueType (body : Body) (v : Operand) (type : ValueType) : Body :=
  { body with values := body.values.setIfInBounds v type }

def graph (body : Body) : Digraph := ⟨body.blocks.map Block.successors⟩

def reversePostorder (body : Body) : List BlockId := body.graph.reversePostorder 0

def dominators (body : Body) : Dominators := Dominators.ofGraph body.graph 0

def ops (body : Body) : List (BlockId × Op) :=
  body.blockIds.flatMap fun b => (body.block b).ops.map fun op => (b, op)

def instructionCount (body : Body) : Nat := body.ops.countP (·.2.isCounted)

def blockDefinitions (body : Body) (b : BlockId) : List (Operand × DefSite) :=
  (body.block b).phis.map (fun phi => (phi.dest, .phi b))
    ++ (body.block b).ops.zipIdx.filterMap fun (op, i) => op.dest?.map fun dest => (dest, .op b i)

def allDefinitions (body : Body) : List (Operand × DefSite) :=
  body.blockIds.flatMap body.blockDefinitions

def definitions (body : Body) : Array (Option DefSite) :=
  body.allDefinitions.foldl (fun defs (v, site) => defs.setIfInBounds v (some site))
    (Array.replicate body.valueCount none)

def uses (body : Body) : List Operand := body.blocks.toList.flatMap Block.uses

def useCounts (body : Body) : Array Nat :=
  body.uses.foldl (fun counts v => counts.modify v (· + 1)) (Array.replicate body.valueCount 0)

def opAt? (body : Body) : DefSite → Option Op
  | .phi _ => none
  | .op b i => (body.block b).ops[i]?

def definingOp? (body : Body) (defs : Array (Option DefSite)) (v : Operand) : Option Op :=
  (defs.getD v none).bind body.opAt?

def constants (body : Body) : Array (Option Constant) :=
  body.ops.foldl (fun known (_, op) =>
      match op with
      | .const dest value => known.setIfInBounds dest (some value)
      | _ => known)
    (Array.replicate body.valueCount none)

def text (body : Body) : String :=
  s!"{body.method}\n"
    ++ "".intercalate (body.blockIds.map fun b => (body.block b).text b)

instance : ToString Body := ⟨text⟩

end Body

end BytecodeOpt.Ssa
