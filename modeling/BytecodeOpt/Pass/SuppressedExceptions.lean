import BytecodeOpt.Class
import BytecodeOpt.Pass.Change

/-!
# Suppressed exceptions

Calls that record or read suppressed exceptions go to a support class, for targets that know
neither.  The support class forgets what is recorded.
-/

namespace BytecodeOpt.Pass.SuppressedExceptions

def supportType : TypeName := ⟨"dexopt.backport.TwrUtility"⟩

def throwable : TypeName := ⟨"java.lang.Throwable"⟩

def record : MethodId where
  holder := supportType
  name := "addSuppressed"
  proto := { returnType := .void, parameters := [throwable, throwable] }

def recorded : MethodId where
  holder := supportType
  name := "getSuppressed"
  proto := { returnType := throwable.arrayOf, parameters := [throwable] }

def supportFor? (callee : MethodId) : Option MethodId :=
  if callee.holder ≠ throwable then none
  else if callee.name = record.name && callee.proto.arity = 1 then some record
  else if callee.name = recorded.name && callee.proto.arity = 0 then some recorded
  else none

def changeOp (method : MethodId) (index : Nat) : Op → Option (Op × List Event)
  | .invoke .virtual callee args dest =>
    (supportFor? callee).map fun support =>
      (.invoke .static support args dest,
        [eventAt .suppressedCallReplaced method index callee.name "twr-desugaring"])
  | _ => none

def run (method : MethodId) (body : Ssa.Body) : Change := .ofOps body (changeOp method)

def supportFlags : MethodFlags := { isPublic := true, isStatic := true, isSynthetic := true }

def supportMethods : List Method :=
  [{ id := record
     flags := supportFlags
     code := some { registers := 2, ins := 2, instructions := [.ret none], tries := [] } },
   { id := recorded
     flags := supportFlags
     code := some
      { registers := 3
        ins := 1
        instructions := [.const 1 (.int 0), .newArray 2 1 throwable.arrayOf, .ret (some 2)]
        tries := [] } }]

def supportClass : Class :=
  supportMethods.foldl Class.addMethod
    { type := supportType, flags := { isPublic := true, isFinal := true, isSynthetic := true } }

end BytecodeOpt.Pass.SuppressedExceptions
