import BytecodeOpt.Lens
import BytecodeOpt.Pass.Change

/-!
# Pending renames

Takes every reference to a member or a type through the pending renames.
-/

namespace BytecodeOpt

namespace Op

def renameReferences (lens : Lens) : Op → Op
  | .invoke kind method args dest => .invoke kind (lens.lookupMethod method) args dest
  | .instanceGet dest object field => .instanceGet dest object (lens.lookupField field)
  | .instancePut value object field => .instancePut value object (lens.lookupField field)
  | .staticGet dest field => .staticGet dest (lens.lookupField field)
  | .staticPut value field => .staticPut value (lens.lookupField field)
  | .newInstance dest type => .newInstance dest (lens.lookupType type)
  | .newArray dest size type => .newArray dest size (lens.lookupType type)
  | .filledNewArray dest type args => .filledNewArray dest (lens.lookupType type) args
  | .checkCast dest value type => .checkCast dest value (lens.lookupType type)
  | .instanceOf dest value type => .instanceOf dest value (lens.lookupType type)
  | .const dest (.type type) => .const dest (.type (lens.lookupType type))
  | other => other

end Op

namespace Pass.References

def events (method : MethodId) (lens : Lens) (index : Nat) : Op → List Event
  | .invoke _ callee _ _ =>
    [eventAt .callRetargeted method index s!"{callee} -> {lens.lookupMethod callee}" "lens"]
  | _ => []

def run (method : MethodId) (lens : Lens) (body : Ssa.Body) : Change :=
  if lens.isIdentity then .unchanged body
  else .ofOps body fun index op =>
    let renamed := op.renameReferences lens
    if renamed = op then none else some (renamed, events method lens index op)

end Pass.References

end BytecodeOpt
