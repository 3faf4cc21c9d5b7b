import BytecodeOpt.Allocation.LinearScan
import BytecodeOpt.Allocation.Numbering
import BytecodeOpt.Allocation.ParallelMove
import BytecodeOpt.Allocation.Preparation
import BytecodeOpt.Event

/-!
# Assignment of registers

Which register holds a value at a position.
-/

namespace BytecodeOpt.Allocation

open Ssa

structure Assignment where
  method : MethodId
  pieces : List Interval
  byValue : Array (List Interval)
  registers : Nat
  splits : Nat
  numbering : Numbering
  liveness : Liveness

namespace Assignment

def piecesOf (a : Assignment) (v : Operand) : List Interval := a.byValue.getD v []

def registerAt? (a : Assignment) (v : Operand) (position : Nat) : Option Reg :=
  ((a.piecesOf v).find? (·.covers position)).bind Interval.register

def location (a : Assignment) (v : Operand) (position : Nat) : Except Fault Reg :=
  match a.registerAt? v position with
  | some register => .ok register
  | none => .error (.noRegisterAt v position)

def freeRegister? (a : Assignment) (positions : List Nat) (moves : List Move) : Option Reg :=
  (List.range a.registers).find? fun register =>
    !(moves.any fun m => m.dest = register || m.source = register)
      && !(a.pieces.any fun i => i.register = some register && positions.any i.covers)

def conflict? (register : Reg) : List Interval → Option Fault
  | [] => none
  | i :: rest =>
    (rest.findSome? fun j =>
      (i.firstIntersection? j).map fun position => .conflict i.value j.value register position).or
        (conflict? register rest)

/-- Every piece has a register, and no register has two values at once. -/
def check (a : Assignment) : Except Fault Unit := do
  match a.pieces.find? (·.register.isNone) with
  | some i => throw (.pieceWithoutRegister i.text)
  | none => pure ()
  (List.range a.registers).forM fun register =>
    match conflict? register (a.pieces.filter (·.register = some register)) with
    | some fault => throw fault
    | none => pure ()

/-! ## Assigning -/

def bindArguments (body : Body) (intervals : Intervals) : Intervals :=
  body.ops.foldl (fun intervals (_, op) =>
    match op with
    | .argument dest index =>
      intervals.modify dest fun i => { i with isFixed := true, register := some index }
    | _ => intervals) intervals

/-- A phi would like the register of its first operand, the result of a move that of its source. -/
def blockHints (b : Block) : List (Operand × Operand) :=
  b.phis.filterMap (fun phi => phi.operands.head?.map fun first => (phi.dest, first))
    ++ b.ops.filterMap fun
      | .move dest source => some (dest, source)
      | _ => none

def hints (body : Body) : List (Operand × Operand) :=
  (body.blocks.toList.flatMap blockHints).reverse

/-- Intervals are split before an operation; where that catches an exception, at the start of its
block. -/
def splitPosition (body : Body) (n : Numbering) (last : Nat) : Nat :=
  let position := last - last % 2
  match n.opAt? position with
  | some (b, 0) =>
    if (body.block b).ops.head?.any Op.isMoveException then n.blockStart b else position
  | _ => position

def ofScan (method : MethodId) (valueCount : Nat) (scan : Scan) (numbering : Numbering)
    (liveness : Liveness) : Assignment :=
  let byValue := scan.pieces.foldl (fun byValue i => byValue.modify i.value (· ++ [i]))
    (Array.replicate valueCount [])
  { method
    pieces := scan.pieces.toList
    byValue := byValue.map (·.mergeSort fun a b => decide (a.start ≤ b.start))
    registers := scan.opened
    splits := scan.splits
    numbering
    liveness }

def events (a : Assignment) : List Event :=
  a.byValue.toList.flatMap fun pieces => (pieces.drop 1).map fun i =>
    { kind := .intervalSplit
      method := some a.method
      message := i.text
      source := some "register-allocation" }

def ofPrepared (body : Body) (ins maxRegisters : Nat) : Except Fault Assignment := do
  let numbering := Numbering.ofBody body
  let liveness := Liveness.ofBody body
  let intervals := bindArguments body (intervalsOf body numbering liveness)
  let scan ← Scan.run
    { ins
      maxRegisters
      hints := hints body
      splitPosition? := fun last => some (splitPosition body numbering last) }
    intervals.toList
  return ofScan body.method body.valueCount scan numbering liveness

end Assignment

def prepare (body : Body) : Body × Except Fault Unit :=
  match checkAllocatable body with
  | .error fault => (body, .error fault)
  | .ok () => ((insertLandingPads body).1.splitCriticalEdges, .ok ())

def assign (body : Body) (ins maxRegisters : Nat) : Body × Except Fault Assignment :=
  let (body, prepared) := prepare body
  (body, prepared.bind fun () => Assignment.ofPrepared body ins maxRegisters)

end BytecodeOpt.Allocation
