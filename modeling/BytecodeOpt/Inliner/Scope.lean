import BytecodeOpt.Program.Hierarchy
import BytecodeOpt.Ssa.Body

/-!
# Where a body may be copied to

Only small bodies without branches may be copied at all, and only to where everything they refer to
can be accessed.
-/

namespace BytecodeOpt.Inliner

open Ssa

def isCallTo (m : MethodId) : Op → Bool
  | .invoke _ callee _ _ => callee = m
  | _ => false

def isReturn : Op → Bool
  | .ret _ => true
  | _ => false

/-- One block that ends in a return, without handlers and calls to itself, and not too large. -/
def isSimple (body : Body) (m : MethodId) (maxSize : Nat) : Bool :=
  let entry := body.block 0
  body.blockCount = 1 && entry.handlers.isEmpty && entry.terminator?.any isReturn
    && !entry.ops.any (isCallTo m) && body.instructionCount ≤ maxSize

def typeScope (program : Program) (type : TypeName) : InlineScope :=
  match program.class? (type.element?.getD type) with
  | some c => if c.flags.isPublic then .always else .samePackage
  | none => .always

def memberScope (isPrivate isPublic : Bool) (holder user : TypeName) : InlineScope :=
  if isPrivate then if holder = user then .sameClass else .never
  else if isPublic then .always
  else .samePackage

def methodScope (program : Program) (user : TypeName) (target : MethodId) : InlineScope :=
  match program.lookup? target with
  | none => .always
  | some m =>
    (memberScope m.flags.isPrivate m.flags.isPublic m.id.holder user).meet
      (typeScope program m.id.holder)

def fieldScope (program : Program) (user : TypeName) (field : FieldId) : InlineScope :=
  match program.field? field with
  | none => .always
  | some f =>
    (memberScope f.flags.isPrivate f.flags.isPublic field.holder user).meet
      (typeScope program field.holder)

def opScope (program : Program) (user : TypeName) : Op → InlineScope
  | .invoke .super .. => .never
  | .invoke _ target _ _ => methodScope program user target
  | .invokeCustom .. => .sameClass
  | .instanceGet _ _ field | .instancePut _ _ field | .staticGet _ field | .staticPut _ field =>
    fieldScope program user field
  | .newInstance _ type | .newArray _ _ type | .filledNewArray _ type _ | .checkCast _ _ type
  | .instanceOf _ _ type | .const _ (.type type) => typeScope program type
  | _ => .always

def scope (program : Program) (m : Method) (body : Body) (maxSize : Nat) : InlineScope :=
  if !isSimple body m.id maxSize || m.id.isInitializer || m.flags.isConstructor
      || m.flags.isSynchronized then .never
  else
    body.ops.foldl (fun scope (_, op) => scope.meet (opScope program m.id.holder op)) .always

end BytecodeOpt.Inliner
