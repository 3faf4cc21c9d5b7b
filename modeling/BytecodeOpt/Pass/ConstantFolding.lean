import BytecodeOpt.Pass.Change

/-!
# Constant folding

Evaluates operations on constants and decides branches on them, until nothing more can be evaluated.
A switch that matches a key without a target ends the folding without a result.
-/

namespace BytecodeOpt.Pass.ConstantFolding

open Ssa

abbrev Constants := Array (Option Constant)

/-- The number a constant counts as; null counts as zero. -/
def number? (constants : Constants) (v : Operand) : Option Int :=
  match constants.getD v none with
  | some .null => some 0
  | some value => value.toInt?
  | none => none

def constantOf (type : ValueType) (n : Int) : Constant :=
  match type with
  | .long => .long (.ofInt n)
  | _ => .int (.ofInt n)

def evaluate? (body : Body) (constants : Constants) : Op → Option (Operand × Constant)
  | .binary op type dest left right => do
    let n ← op.fold type (← number? constants left) (← number? constants right)
    return (dest, constantOf (body.valueType dest) n)
  | .unary op dest source => do
    let n := op.fold (← number? constants source) (body.valueType source)
    return (dest, constantOf (body.valueType dest) n)
  | _ => none

/-- The target at the index of the first key that matches, which may be missing. -/
def switchTarget? (keys : List Int) (targets : List BlockId) (default : BlockId) (n : Int) :
    Option BlockId :=
  match keys.findIdx? (· = n) with
  | some i => targets[i]?
  | none => some default

/-- Where a decided branch goes; a switch may have nowhere to go. -/
def decided? (constants : Constants) : Op → Option (Option BlockId)
  | .branch cond left right onTrue onFalse => do
    let l ← number? constants left
    let r ← match right with
      | some right => number? constants right
      | none => some 0
    return if cond.holds l r then onTrue else onFalse
  | .switch value keys targets default => do
    let n ← number? constants value
    return switchTarget? keys targets default n
  | _ => none

structure Folding where
  body : Body
  constants : Constants
  events : List Event := []
  changed : Bool := false
  decidedBranch : Bool := false
  deriving Repr, Inhabited

def foldOp (method : MethodId) (f : Folding) (b : BlockId) (index : Nat) (op : Op) : Folding :=
  match evaluate? f.body f.constants op with
  | none => f
  | some (dest, value) =>
    { f with
      body := f.body.modifyBlock b fun block =>
        { block with ops := block.ops.set index (.const dest value) }
      constants := f.constants.setIfInBounds dest (some value)
      events := f.events ++ [eventAt .constantFolded method index s!"{op} -> {value}"
        "constant-folding"]
      changed := true }

def foldTerminator (method : MethodId) (f : Folding) (b : BlockId) : Option Folding :=
  match (f.body.block b).terminator?.bind (decided? f.constants) with
  | none => some f
  | some decided => do
    let target ← decided
    return { f with
      body := f.body.foldBranch b target
      events := f.events ++ [eventAt .branchSimplified method b
        s!"B{b} always branches to B{target}" "constant-folding"]
      changed := true
      decidedBranch := true }

def foldBlock (method : MethodId) (f : Folding) (b : BlockId) : Option Folding :=
  let ops := (f.body.block b).ops
  foldTerminator method (ops.zipIdx.foldl (fun f (op, index) => foldOp method f b index op) f) b

/-- Goes round until nothing changes; each round but the last leaves one operation or branch less to
evaluate. -/
def rounds (method : MethodId) : Nat → Folding → Option Folding
  | 0, f => some f
  | n + 1, f => do
    let next ← f.body.reversePostorder.foldlM (foldBlock method) { f with changed := false }
    if next.changed then return { ← rounds method n next with changed := true }
    else return { next with changed := f.changed }

def run (method : MethodId) (body : Body) : Option Change := do
  let folding ← rounds method (body.ops.length + 1) { body, constants := body.constants }
  return {
    body := if folding.decidedBranch then folding.body.removeUnreachable else folding.body
    events := folding.events
    changed := folding.changed }

end BytecodeOpt.Pass.ConstantFolding
