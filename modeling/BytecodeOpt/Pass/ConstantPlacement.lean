import BytecodeOpt.Pass.Change

/-!
# Placement of constants

A block that reads a constant loaded elsewhere gets a load of its own, and a constant read in one
block only is loaded right before its first read, so that constants occupy registers for a short
time.
-/

namespace BytecodeOpt.Pass.ConstantPlacement

open Ssa

def isMovable (value : Constant) : Bool := !value.isType

def insertOp (ops : List Op) (position : Nat) (op : Op) :
    List Op := ops.take position ++ op :: ops.drop position

/-! ## A load for each block -/

structure Read where
  block : BlockId
  value : Operand
  index : Nat
  constant : Constant
  deriving DecidableEq, Repr, Inhabited

/-- The constant behind a value read in block `b`, if it is movable and loaded elsewhere. -/
def foreign? (constants : Array (Option Constant)) (defs : Array (Option DefSite)) (b : BlockId)
    (v : Operand) : Option Constant := do
  let constant ← constants.getD v none
  let site ← defs.getD v none
  guard (isMovable constant && site.block ≠ b)
  return constant

/-- The first reads of a block, each value once, in reading order. -/
def firstReads (constants : Array (Option Constant)) (defs : Array (Option DefSite)) (b : BlockId)
    (ops : List Op) : List Read :=
  let reads := ops.zipIdx.flatMap fun (op, index) => op.uses.filterMap fun value =>
    (foreign? constants defs b value).map fun constant =>
    ({ block := b, value, index, constant } : Read)
  reads.foldl (fun seen r => if seen.any (·.value = r.value) then seen else seen ++ [r]) []

/-- From the back of the block to the front, so that the indices of those to come stay right. -/
def isLater (a b : Read) : Bool := b.index < a.index || (a.index = b.index && b.value ≤ a.value)

def splitAt (method : MethodId) (body : Body) (r : Read) : Body × Event :=
  let copy := body.valueCount
  let position := max r.index (body.block r.block).insertionPoint
  let renamed := body.addValue (body.valueType r.value)
  let body := renamed.modifyBlock r.block fun block =>
    let replaced :=
      block.ops.drop position |>.map (Op.mapUses fun v => if v = r.value then copy else v)
    { block with ops := block.ops.take position ++ .const copy r.constant :: replaced }
  (body, eventAt .liveRangeShortened method position s!"v{copy} <- copy of v{r.value} in B{r.block}"
    "constant-splitting")

def split (method : MethodId) (body : Body) : Change :=
  let constants := body.constants
  let defs := body.definitions
  let reads := body.blockIds.flatMap fun b =>
    (firstReads constants defs b (body.block b).ops).mergeSort isLater
  let (body, events) := reads.foldl (fun (body, events) r =>
    let (body, event) := splitAt method body r
    (body, events ++ [event])) (body, [])
  { body, events, changed := !reads.isEmpty }

/-! ## Loading late -/

inductive Readers where
  | nowhere
  | block (b : BlockId) (first : Nat)
  | spread
  deriving DecidableEq, Repr, Inhabited

def Readers.add (b : BlockId) (index : Nat) : Readers → Readers
  | .nowhere => .block b index
  | .block c first => if c = b then .block c first else .spread
  | .spread => .spread

def readers (body : Body) : Array Readers :=
  let none := Array.replicate body.valueCount Readers.nowhere
  let byOps := body.blockIds.foldl (fun found b =>
    (body.block b).ops.zipIdx.foldl (fun found (op, index) =>
      op.uses.foldl (fun found v => found.modify v (Readers.add b index)) found) found) none
  (body.blocks.toList.flatMap Block.phis).foldl (fun found phi =>
    phi.operands.foldl (fun found v => found.setIfInBounds v .spread) found) byOps

def movable? (body : Body) (readers : Array Readers) (v : Operand) :
    Option DefSite → Option (Operand × BlockId × BlockId)
  | some (.op b index) =>
    match (body.block b).ops[index]?, readers.getD v .nowhere with
    | some (.const _ constant), .block reader first =>
      if isMovable constant && !(reader = b && first ≤ index + 1) then some (v, b, reader) else none
    | _, _ => none
  | _ => none

def moveLoad (method : MethodId) (body : Body) (v : Operand) (source target : BlockId) :
    Body × List Event :=
  match (body.block source).ops.find? (·.dest? = some v) with
  | none => (body, [])
  | some op =>
    let body := body.modifyBlock source fun block =>
      { block with ops := block.ops.eraseP (·.dest? = some v) }
    let block := body.block target
    let first := (block.ops.findIdx? (·.uses.contains v)).getD 0
    let position := max first block.insertionPoint
    (body.modifyBlock target fun block => { block with ops := insertOp block.ops position op },
      [eventAt .liveRangeShortened method position s!"v{v} moved to B{target}" "live-ranges"])

def shorten (method : MethodId) (body : Body) : Change :=
  let readers := readers body
  let moves := body.definitions.toList.zipIdx.filterMap fun (site, v) =>
    movable? body readers v site
  let (body, events) := moves.foldl (fun (body, events) (v, source, target) =>
    let (body, new) := moveLoad method body v source target
    (body, events ++ new)) (body, [])
  { body, events, changed := !events.isEmpty }

end BytecodeOpt.Pass.ConstantPlacement
