import BytecodeOpt.Pass.Change

/-!
# Simpler branches

A branch that can go one way only becomes a jump, and a comparison with a loaded zero becomes a test
for zero.
-/

namespace BytecodeOpt.Pass.Branches

open Ssa

inductive Simplification where
  | jump (target : BlockId)
  | branch (op : Op)
  deriving DecidableEq, Repr, Inhabited

def isZero (constants : Array (Option Constant)) (v : Operand) : Bool :=
  (constants.getD v none).any Constant.isZero

def isAllocation (body : Body) (defs : Array (Option DefSite)) (v : Operand) : Bool :=
  match body.definingOp? defs v with
  | some (.newInstance ..) | some (.newArray ..) | some (.filledNewArray ..) => true
  | _ => false

def simplify? (body : Body) (constants : Array (Option Constant)) (defs : Array (Option DefSite)) :
    Op → Option Simplification
  | .branch cond left right onTrue onFalse =>
    let decided := fun (taken : Bool) => Simplification.jump (if taken then onTrue else onFalse)
    if onTrue = onFalse then some (.jump onTrue)
    else
      match right with
      | some right =>
        if right = left then some (decided (cond.holds 0 0))
        else if isZero constants right then some (.branch (.branch cond left none onTrue onFalse))
        else if isZero constants left then
          some (.branch (.branch cond.swapped right none onTrue onFalse))
        else none
      | none =>
        if (cond = .eq || cond = .ne) && isAllocation body defs left then some
          (decided (cond = .ne))
        else none
  | _ => none

def apply (body : Body) (b : BlockId) : Simplification → Body × String
  | .jump target => (body.foldBranch b target, s!"B{b} always branches to B{target}")
  | .branch op => (body.modifyBlock b (·.mapTerminator fun _ => op), op.text)

def run (method : MethodId) (body : Body) : Change :=
  let constants := body.constants
  let defs := body.definitions
  let found := body.blockIds.filterMap fun b =>
    ((body.block b).terminator?.bind (simplify? body constants defs)).map fun s => (b, s)
  let (simplified, events) := found.foldl (fun (body, events) (b, s) =>
    let (body, message) := apply body b s
    (body, events ++ [eventAt .branchSimplified method b message "conditionals"])) (body, [])
  let dropsEdges := found.any fun (_, s) => match s with
    | .jump _ => true
    | .branch _ => false
  { body := if dropsEdges then simplified.removeUnreachable else simplified
    events
    changed := !found.isEmpty }

end BytecodeOpt.Pass.Branches
