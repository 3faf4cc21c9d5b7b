import BytecodeOpt.Pass.Change
import BytecodeOpt.Program

/-!
# Static methods of interfaces

For targets that do not allow them they move to a companion class of the interface, and calls
follow.
-/

namespace BytecodeOpt.Pass.InterfaceMethods

def companion (interface : TypeName) : TypeName := interface.withSuffix "$-CC"

def movedTo? (program : Program) (callee : MethodId) : Option MethodId := do
  let c ← program.class? callee.holder
  guard (c.flags.isInterface && callee.name ≠ MethodId.classInitializer)
  return callee.withHolder (companion callee.holder)

def changeOp (method : MethodId) (program : Program) (index : Nat) : Op → Option (Op × List Event)
  | .invoke .static callee args dest =>
    (movedTo? program callee).map fun target =>
      (.invoke .static target args dest,
        [eventAt .interfaceCallRetargeted method index s!"{callee} -> {target.holder}"
          "interface-desugaring"])
  | _ => none

def run (method : MethodId) (program : Program) (body : Ssa.Body) : Change :=
  .ofOps body (changeOp method program)

/-! ## Moving the methods -/

def isMoved (m : Method) : Bool := m.flags.isStatic && m.id.name ≠ MethodId.classInitializer

def moveMethod (type : TypeName) (m : Method) : Method :=
  { m with
    id := m.id.withHolder type
    flags := { m.flags with isPrivate := false, isPublic := true } }

def companionClass? (c : Class) : Option Class :=
  let moved := if c.flags.isInterface then c.direct.filter isMoved else []
  if moved.isEmpty then none
  else
    let type := companion c.type
    some ((moved.map (moveMethod type)).foldl Class.addMethod
      { type, flags := { isPublic := true, isFinal := true, isSynthetic := true } })

def dropMoved (c : Class) : Class :=
  if c.flags.isInterface then { c with direct := c.direct.filter fun m => !isMoved m } else c

end BytecodeOpt.Pass.InterfaceMethods
