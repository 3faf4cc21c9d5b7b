import BytecodeOpt.Ssa.Body
import BytecodeOpt.Ssa.Renaming

/-!
# Edits of a body

Replacing values, cutting and splitting edges, and dropping what can no longer be reached.
-/

namespace BytecodeOpt.Ssa.Body

def rename (body : Body) (r : Renaming) : Body :=
  if r.entries.isEmpty then body else body.mapBlocks (·.mapUses r.resolve)

def renamedUses (body : Body) (r : Renaming) : Nat := body.uses.countP fun v => r.resolve v != v

def replaceUses (body : Body) (v target : Operand) : Body :=
  body.rename (({} : Renaming).insert v target)

def removePred (body : Body) (b pred : BlockId) : Body := body.modifyBlock b (·.removePred pred)

def retargetEdge (body : Body) (source old new : BlockId) : Body :=
  body.modifyBlock source (·.mapTerminator (Op.mapTargets fun t => if t = old then new else t))

def splitEdge (body : Body) (source target : BlockId) : Body :=
  let middle := body.blockCount
  let body := body.addBlock { ops := [.goto target], preds := [source] }
  let body := body.retargetEdge source target middle
  body.modifyBlock target fun b =>
    { b with preds := b.preds.map fun p => if p = source then middle else p }

def criticalEdges (body : Body) : List (BlockId × BlockId) :=
  body.blockIds.flatMap fun source =>
    let b := body.block source
    if b.successors.length < 2 then []
    else (b.normalSuccessors.filter fun target =>
      1 < (body.block target).preds.length && !b.isExceptionalSuccessor target).map fun target =>
        (source, target)

def splitCriticalEdges (body : Body) : Body :=
  body.criticalEdges.foldl (fun body (source, target) => body.splitEdge source target) body

def rank (reachable : Array Bool) (b : BlockId) : Nat :=
  (List.range b).countP (reachable.getD · false)

/-- Numbers the reachable blocks without gaps; the others keep their numbers. -/
def compactId (reachable : Array Bool) (b : BlockId) : BlockId :=
  if reachable.getD b false then rank reachable b else b

def dropDeadPreds (reachable : Array Bool) (b : Block) : Block :=
  (b.preds.filter fun p => !reachable.getD p false).foldl Block.removePred b

def renumber (f : BlockId → BlockId) (b : Block) : Block :=
  let renumbered := b.mapTerminator (Op.mapTargets f)
  { renumbered with
    preds := b.preds.map f
    handlers := b.handlers.map fun h => { h with target := f h.target } }

def hasUnreachable (body : Body) : Bool := (body.graph.reached 0).contains false

/-- Keeps the reachable blocks in their order and closes the gaps in the numbering. -/
def removeUnreachable (body : Body) : Body :=
  let reachable := body.graph.reached 0
  if reachable.contains false then
    let kept := body.blockIds.filter (reachable.getD · false)
    { body with
      blocks := (kept.map fun b =>
        renumber (compactId reachable) (dropDeadPreds reachable (body.block b))).toArray }
  else body

def foldBranch (body : Body) (b target : BlockId) : Body :=
  let old := body.block b
  let dropped := old.normalSuccessors.filter fun s => s != target && !old.isHandlerTarget s
  dropped.foldl (fun body s => body.removePred s b)
    (body.modifyBlock b (·.mapTerminator fun _ => .goto target))

end BytecodeOpt.Ssa.Body
