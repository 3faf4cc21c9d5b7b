import BytecodeOpt.Pass.Change

/-!
# Calls with a known meaning

The comparison of two longs becomes one operation.  A null check by library call becomes one too,
when the target may lack the library method.
-/

namespace BytecodeOpt.Pass.KnownCalls

open Ssa

def longCompare : MethodId where
  holder := ⟨"java.lang.Long"⟩
  name := "compare"
  proto := { returnType := .int, parameters := [.long, .long] }

def requireNonNull : MethodId where
  holder := ⟨"java.util.Objects"⟩
  name := "requireNonNull"
  proto := { returnType := .object, parameters := [.object] }

def meaning? (replacesNullChecks : Bool) : Op → Option Op
  | .invoke .static callee [left, right] (some dest) =>
    if callee = longCompare then some (.binary .cmp .long dest left right) else none
  | .invoke .static callee [value] _ =>
    if replacesNullChecks && callee = requireNonNull then some (.nullCheck value) else none
  | _ => none

/-- A checked value that the call also returned: the result and the value. -/
def forwarded? (replacesNullChecks : Bool) (op : Op) : Option (Operand × Operand) :=
  match meaning? replacesNullChecks op, op.dest? with
  | some (.nullCheck value), some dest => some (dest, value)
  | _, _ => none

def run (method : MethodId) (replacesNullChecks : Bool) (body : Body) : Change :=
  let change := Change.ofOps body fun index op =>
    (meaning? replacesNullChecks op).map fun new =>
      (new, [eventAt .callRetargeted method index new.text "normalize"])
  let forwarded := body.ops.filterMap fun (_, op) => forwarded? replacesNullChecks op
  { change with
    body := forwarded.foldl (fun body (old, new) => body.replaceUses old new) change.body }

end BytecodeOpt.Pass.KnownCalls
