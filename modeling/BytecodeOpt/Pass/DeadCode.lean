import BytecodeOpt.Pass.Change
import BytecodeOpt.Total

/-!
# Dead code

Drops phis that pick one value, then what computes values nobody needs, then joins blocks that
follow each other, until nothing changes.
-/

namespace BytecodeOpt.Pass.DeadCode

open Ssa

/-! ## Phis that pick one value -/

def onlyChoice? (phi : Phi) : Option Operand :=
  match (phi.operands.filter (· ≠ phi.dest)).eraseDups with
  | [value] => some value
  | _ => none

def findTrivialPhi? (body : Body) : Option (BlockId × Phi × Operand) :=
  body.blockIds.findSome? fun b => (body.block b).phis.findSome? fun phi =>
    (onlyChoice? phi).map fun value => (b, phi, value)

/-- Drops such phis one after the other and counts them; there are at most `fuel`. -/
def resolvePhis : Nat → Body → Body × Nat
  | 0, body => (body, 0)
  | fuel + 1, body =>
    match findTrivialPhi? body with
    | none => (body, 0)
    | some (b, phi, value) =>
      let dropped := body.modifyBlock b fun block => { block with phis := block.phis.erase phi }
      let (body, count) := resolvePhis fuel (dropped.replaceUses phi.dest value)
      (body, count + 1)

def phiCount (body : Body) : Nat := totalOf (fun b => b.phis.length) body.blocks.toList

/-! ## Values nobody needs -/

def isRoot (op : Op) : Bool := op.hasSideEffects

def reads (body : Body) (defs : Array (Option DefSite)) (v : Operand) : List Operand :=
  match defs.getD v none with
  | some (.phi b) => (((body.block b).phis.find? (·.dest = v)).map Phi.operands).getD []
  | some (.op b index) => ((body.block b).ops[index]?.map Op.uses).getD []
  | none => []

def live (body : Body) : Array Bool :=
  let defs := body.definitions
  let graph : Digraph := ⟨(Array.range body.valueCount).map (reads body defs)⟩
  let roots := (body.ops.filter fun (_, op) => isRoot op).flatMap fun (_, op) => op.uses
  (roots.foldl graph.explore (Digraph.Search.start graph)).entered

def dropDeadResult (isLive : Operand → Bool) : Op → Op
  | .invoke kind method args dest => .invoke kind method args (dest.filter isLive)
  | .invokeCustom site args dest => .invokeCustom site args (dest.filter isLive)
  | other => other

def isKept (isLive : Operand → Bool) (op : Op) : Bool := isRoot op || op.dest?.any isLive

def sweepBlock (isLive : Operand → Bool) (b : Block) : Block :=
  { b with
    phis := b.phis.filter fun phi => isLive phi.dest
    ops := (b.ops.filter (isKept isLive)).map (dropDeadResult isLive) }

def sweptCount (isLive : Operand → Bool) (b : Block) : Nat :=
  b.phis.countP (fun phi => !isLive phi.dest) + b.ops.countP fun op =>
    !isKept isLive op || dropDeadResult isLive op ≠ op

def sweep (method : MethodId) (body : Body) : Body × List Event × Nat :=
  let live := live body
  let isLive := fun v => live.getD v false
  let events := body.blocks.toList.flatMap fun b =>
    (b.ops.zipIdx.filter fun (op, _) => !isKept isLive op).map fun (op, index) =>
      eventAt .instructionRemoved method index op.text "dead-code"
  (body.mapBlocks (sweepBlock isLive), events, totalOf (sweptCount isLive) body.blocks.toList)

/-! ## Joining blocks -/

def mergeable? (body : Body) (b : BlockId) : Option BlockId :=
  let block := body.block b
  match block.terminator? with
  | some (.goto next) =>
    let following := body.block next
    if next ≠ b && next ≠ 0 && block.handlers.isEmpty && following.preds = [b]
        && !following.ops.head?.any Op.isMoveException
        && (following.handlers.isEmpty || !block.ops.any Op.canThrow)
    then some next else none
  | _ => none

def merge (body : Body) (b next : BlockId) : Body :=
  let absorbed := body.block next
  let forwarded := Renaming.ofList (absorbed.phis.filterMap fun phi =>
    phi.operands.head?.map fun operand => (phi.dest, operand))
  let emptied := body.modifyBlock next fun _ => {}
  let relinked := absorbed.successors.foldl (fun body s => body.modifyBlock s fun block =>
    { block with preds := block.preds.map fun p => if p = next then b else p }) emptied
  (relinked.modifyBlock b fun block =>
    { block with
      ops := block.ops.dropLast ++ absorbed.ops
      handlers := absorbed.handlers }).rename forwarded

def mergeFrom (method : MethodId) : Nat → BlockId → Body → List Event → Body × List Event
  | 0, _, body, events => (body, events)
  | fuel + 1, b, body, events =>
    if b < body.blockCount then
      match mergeable? body b with
      | none => mergeFrom method fuel (b + 1) body events
      | some next =>
        mergeFrom method fuel b (merge body b next)
          (events ++ [eventAt .blockRemoved method next s!"B{next} merged into B{b}" "dead-code"])
    else (body, events)

def mergeBlocks (method : MethodId) (body : Body) : Body × List Event :=
  let (merged, events) := mergeFrom method (2 * body.blockCount) 0 body []
  (if events.isEmpty then merged else merged.removeUnreachable, events)

/-! ## All together -/

def round (method : MethodId) (body : Body) : Body × List Event × Nat :=
  let (body, phis) := resolvePhis (phiCount body) body
  let (body, swept, removed) := sweep method body
  let (body, merged) := mergeBlocks method body
  (body, swept ++ merged, phis + removed + merged.length)

def rounds (method : MethodId) : Nat → Change → Change
  | 0, r => r
  | n + 1, r =>
    let (body, events, count) := round method r.body
    let next := { r with body, events := r.events ++ events }
    if count = 0 then next else rounds method n { next with changed := true }

def run (method : MethodId) (maxRounds : Nat) (body : Body) : Change :=
  rounds method (max maxRounds 1) (.unchanged body)

end BytecodeOpt.Pass.DeadCode
