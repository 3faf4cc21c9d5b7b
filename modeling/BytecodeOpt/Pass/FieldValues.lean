import BytecodeOpt.Pass.Change
import BytecodeOpt.Program

/-!
# Values of constant fields

Reads a static field that can only have the value it was declared with as that constant.
-/

namespace BytecodeOpt.Pass.FieldValues

def constant? (program : Program) (field : FieldId) : Option Constant :=
  ((program.field? field).filter Field.isConstant).bind Field.value

def changeOp (method : MethodId) (program : Program) (body : Ssa.Body) (index : Nat) :
    Op → Option (Op × List Event)
  | .staticGet dest field => do
    let value ← constant? program field
    guard (value.valueType = body.valueType dest)
    return (.const dest value,
      [eventAt .fieldValuePropagated method index s!"{field} = {value}" "member-values"])
  | _ => none

def run (method : MethodId) (program : Program) (body : Ssa.Body) : Change :=
  .ofOps body (changeOp method program body)

end BytecodeOpt.Pass.FieldValues
