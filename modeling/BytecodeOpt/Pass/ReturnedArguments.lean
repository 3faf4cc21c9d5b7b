import BytecodeOpt.Pass.Change
import BytecodeOpt.Program.Hierarchy

/-!
# Methods that return an argument

Finds out whether every return of a body hands back the same argument, and reads the result of a
call to such a method as the argument itself.
-/

namespace BytecodeOpt.Pass.ReturnedArguments

open Ssa

/-! ## Finding them -/

def argumentIndex? (body : Body) (defs : Array (Option DefSite)) (v : Operand) : Option Nat :=
  match body.definingOp? defs v with
  | some (.argument _ index) => some index
  | _ => none

def returned (body : Body) : List (Option Nat) :=
  let defs := body.definitions
  body.ops.filterMap fun (_, op) =>
    match op with
    | .ret value => some (value.bind (argumentIndex? body defs))
    | _ => none

/-- The argument that every return hands back; none if there is no return. -/
def common? (body : Body) : Option Nat :=
  match returned body with
  | some index :: rest => if rest.all (· = some index) then some index else none
  | _ => none

def identified (method : MethodId) (index : Nat) : Event :=
  { kind := .returnsArgumentIdentified
    method := some method
    message := s!"returns argument {index}"
    source := some "returns-argument" }

/-! ## Using them -/

/-- The method that a call runs: the only one it can reach in the program, or the one it names if
the program has none. -/
def target? (program : Program) (kind : InvokeKind) (callee : MethodId) : Option MethodId :=
  match program.singleTarget? kind callee with
  | some target => some target
  | none => if (program.lookup? callee).isSome then none else some callee

def forwarded? (program : Program) (returns : MethodId → Option Nat) (body : Body) :
    Op → Option (MethodId × Operand × Operand)
  | .invoke kind callee args (some dest) => do
    let target ← target? program kind callee
    let argument ← args[← returns target]?
    guard (body.valueType argument = body.valueType dest)
    return (target, dest, argument)
  | _ => none

def dropResult : Op → Op
  | .invoke kind callee args _ => .invoke kind callee args none
  | other => other

def run (method : MethodId) (program : Program) (returns : MethodId → Option Nat) (body : Body) :
    Change :=
  let forwarded? := forwarded? program returns body
  let change := Change.ofOps body fun index op =>
    (forwarded? op).map fun (target, _, _) =>
      (dropResult op,
        [eventAt .instructionRemoved method index s!"move-result of {target}" "move-result"])
  let forwards := Renaming.ofList (body.ops.filterMap fun (_, op) => (forwarded? op).map Prod.snd)
  { change with body := change.body.rename forwards }

end BytecodeOpt.Pass.ReturnedArguments
