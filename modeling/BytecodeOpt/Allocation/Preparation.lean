import BytecodeOpt.Allocation.Fault
import BytecodeOpt.Ssa.Edit

/-!
# Preparation

Registers are assigned to bodies in which every result is read.  Each edge gets a block where moves
can be placed: exceptional edges that meet at a handler each get a pad, and critical edges are
split.
-/

namespace BytecodeOpt.Allocation

open Ssa

def isUnused (useCounts : Array Nat) (v : Operand) : Bool := useCounts.getD v 0 = 0

def checkOp (useCounts : Array Nat) (b : BlockId) (op : Op) : Except Fault Unit :=
  if op.dest?.any (isUnused useCounts) && !op.hasSideEffects && !op.isMoveException then
    .error (.deadDefinition op b)
  else .ok ()

def checkBlock (useCounts : Array Nat) (block : Block) (b : BlockId) : Except Fault Unit := do
  match block.phis.find? fun phi => isUnused useCounts phi.dest with
  | some phi => throw (.unusedPhi phi.dest b)
  | none => block.ops.forM (checkOp useCounts b)

/-- Every result is read, save those of operations that must stay. -/
def checkAllocatable (body : Body) : Except Fault Unit :=
  let useCounts := body.useCounts
  body.blockIds.forM fun b => checkBlock useCounts (body.block b) b

/-! ## Landing pads -/

def needsPads (body : Body) (handler : BlockId) : Bool :=
  let preds := (body.block handler).preds
  2 ≤ preds.length && preds.all fun p => (body.block p).isExceptionalSuccessor handler

def caught? (b : Block) : Option Operand :=
  match b.ops with
  | .moveException dest :: _ => some dest
  | _ => none

/-- Puts a pad between the predecessor at an index and the handler; it catches the exception itself
if the handler wants it. -/
def insertPad (handler : BlockId) (catches : Bool) (body : Body) (pred : BlockId) (index : Nat) :
    Body :=
  let pad := body.blockCount
  let caught := body.valueCount
  let ops := if catches then [.moveException caught, .goto handler] else [.goto handler]
  let extended := body.addBlock { ops, preds := [pred] }
  let withValue := if catches then extended.addValue .reference else extended
  let redirected := withValue.modifyBlock pred fun b =>
    { b with handlers := b.handlers.map fun h => if h.target = handler then { h with target := pad }
      else h }
  redirected.modifyBlock handler fun b => { b with preds := b.preds.set index pad }

def insertPads (body : Body) (handler : BlockId) : Body :=
  let block := body.block handler
  let caught := caught? block
  let first := body.valueCount
  let padded := block.preds.zipIdx.foldl (fun body (pred, index) =>
    insertPad handler caught.isSome body pred index) body
  match caught with
  | none => padded
  | some dest =>
    padded.modifyBlock handler fun b =>
      { b with
        ops := b.ops.drop 1
        phis := b.phis ++ [{ dest, operands := List.range' first block.preds.length }] }

def padHandler (padded : Body × Nat) (handler : BlockId) : Body × Nat :=
  if needsPads padded.1 handler then
    (insertPads padded.1 handler, padded.2 + (padded.1.block handler).preds.length)
  else padded

def insertLandingPads (body : Body) : Body × Nat := body.blockIds.foldl padHandler (body, 0)

end BytecodeOpt.Allocation
