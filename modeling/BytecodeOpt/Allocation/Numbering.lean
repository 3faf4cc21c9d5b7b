import BytecodeOpt.Allocation.Interval
import BytecodeOpt.Ssa.Liveness

/-!
# Positions

The blocks are laid out in reverse postorder.  Each starts at an even position, where its phis take
effect; its operations follow at the next even positions.  An operation at position `p` reads at `p`
and writes at `p + 1`, so that its result may take the register of an operand that ends there.
-/

namespace BytecodeOpt.Allocation

open Ssa

structure Numbering where
  order : List BlockId
  starts : Array Nat
  stops : Array Nat
  deriving DecidableEq, Repr, Inhabited

namespace Numbering

def ofBody (body : Body) : Numbering :=
  let order := body.reversePostorder
  let zeros := Array.replicate body.blockCount 0
  let (_, starts, stops) := order.foldl (fun (position, starts, stops) b =>
    let next := position + 2 * ((body.block b).ops.length + 1)
    (next, starts.setIfInBounds b position, stops.setIfInBounds b next)) (0, zeros, zeros)
  { order, starts, stops }

def blockStart (n : Numbering) (b : BlockId) : Nat := n.starts.getD b 0

def blockStop (n : Numbering) (b : BlockId) : Nat := n.stops.getD b 0

def position (n : Numbering) (b : BlockId) (index : Nat) : Nat := n.blockStart b + 2 * (index + 1)

def opAt? (n : Numbering) (position : Nat) : Option (BlockId × Nat) := do
  let b ← n.order.find? fun b => n.blockStart b < position && position < n.blockStop b
  let offset := position - n.blockStart b
  guard (offset % 2 = 0)
  return (b, offset / 2 - 1)

end Numbering

abbrev Intervals := Array Interval

def addOp (n : Numbering) (b : BlockId) (intervals : Intervals) (op : Op) (index : Nat) :
    Intervals :=
  let position := n.position b index
  let defined := match op.dest? with
    | some dest => intervals.modify dest (·.defineAt (position + 1))
    | none => intervals
  op.uses.foldl (fun intervals v =>
    intervals.modify v (·.addRange (n.blockStart b) (position + 1))) defined

def addBlock (body : Body) (n : Numbering) (l : Liveness) (intervals : Intervals) (b : BlockId) :
    Intervals :=
  let block := body.block b
  let through := (l.liveOutOf b).foldl (fun intervals v =>
    intervals.modify v (·.addRange (n.blockStart b) (n.blockStop b))) intervals
  let byOps := block.ops.zipIdx.reverse.foldl (fun intervals (op, index) =>
    addOp n b intervals op index) through
  block.phis.foldl (fun intervals phi =>
    intervals.modify phi.dest (·.defineAt (n.blockStart b))) byOps

def intervalsOf (body : Body) (n : Numbering) (l : Liveness) : Intervals :=
  n.order.reverse.foldl (addBlock body n l)
    ((Array.range body.valueCount).map fun v => { value := v })

end BytecodeOpt.Allocation
