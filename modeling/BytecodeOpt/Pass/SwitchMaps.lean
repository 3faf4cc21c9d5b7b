import BytecodeOpt.Pass.Change
import BytecodeOpt.Program

/-!
# Switches over enum tables

A switch on a table entry looked up by ordinal becomes a switch on the ordinal, if the contents of
the table are known.
-/

namespace BytecodeOpt.Pass.SwitchMaps

open Ssa

def lookup? (body : Body) (defs : Array (Option DefSite)) (value : Operand) :
    Option (FieldId × Operand) := do
  let .arrayGet _ array index _ ← body.definingOp? defs value | none
  let .staticGet _ field ← body.definingOp? defs array | none
  let .invoke .virtual callee _ _ ← body.definingOp? defs index | none
  guard (callee.name = "ordinal" && callee.proto.arity = 0)
  return (field, index)

def cases (map : SwitchMap) (keys : List Int) (targets : List BlockId) : List (Int × BlockId) :=
  map.filterMap fun (ordinal, key) => do
    let position ← keys.findIdx? (· = key)
    return (ordinal, ← targets[position]?)

def newSwitch? (program : Program) (body : Body) (defs : Array (Option DefSite)) :
    Op → Option (Op × FieldId)
  | .switch value keys targets default => do
    let (field, ordinal) ← lookup? body defs value
    let map ← program.switchMap? field
    let cases := cases map keys targets
    return (.switch ordinal (cases.map Prod.fst) (cases.map Prod.snd) default, field)
  | _ => none

def replaceTerminator (body : Body) (b : BlockId) (op : Op) : Body :=
  let old := body.block b
  let dropped := old.normalSuccessors.filter fun s =>
    !op.successors.contains s && !old.isHandlerTarget s
  dropped.foldl (fun body s => body.removePred s b)
    (body.modifyBlock b (·.mapTerminator fun _ => op))

def run (method : MethodId) (program : Program) (body : Body) : Change :=
  let defs := body.definitions
  let changes := body.blockIds.filterMap fun b => do
    let (op, field) ← newSwitch? program body defs (← (body.block b).terminator?)
    return (b, op, field)
  if changes.isEmpty then .unchanged body
  else
    { body := (changes.foldl (fun body (b, op, _) => replaceTerminator body b op)
        body).removeUnreachable
      events := changes.map fun (b, _, field) =>
        eventAt .switchMapRemoved method b s!"switch on ordinal instead of {field}" "switch-maps"
      changed := true }

end BytecodeOpt.Pass.SwitchMaps
