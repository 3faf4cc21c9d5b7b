import BytecodeOpt.Lambda
import BytecodeOpt.Pass.Change

/-!
# Lambda creation

Creates lambdas by calls of the factories of their classes.
-/

namespace BytecodeOpt.Pass.Lambdas

open Ssa

def changeOp (method : MethodId) (names : LambdaNames) (index : Nat) : Op → Option (Op × List Event)
  | .invokeCustom site args dest =>
    (names.class? site).map fun type =>
      (.invoke .static (Lambda.factory type site) args dest,
        [eventAt .lambdaDesugared method index site.implementation.text "lambda-desugaring"])
  | _ => none

def run (method : MethodId) (names : LambdaNames) (body : Body) : Change :=
  .ofOps body (changeOp method names)

def used (names : LambdaNames) (body : Body) : List (TypeName × CallSite) :=
  body.ops.filterMap fun (_, op) =>
    match op with
    | .invokeCustom site _ _ => (names.class? site).map fun type => (type, site)
    | _ => none

end BytecodeOpt.Pass.Lambdas
