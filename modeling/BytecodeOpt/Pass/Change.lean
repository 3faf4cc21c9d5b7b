import BytecodeOpt.Event
import BytecodeOpt.Ssa.Edit

/-!
# Changes of a body

A change takes a body to a new one, reports events, and says whether anything changed.
-/

namespace BytecodeOpt.Pass

open Ssa

structure Change where
  body : Body
  events : List Event := []
  changed : Bool := false
  deriving Repr, Inhabited

namespace Change

def unchanged (body : Body) : Change := { body }

/-- Replaces operations one at a time, where `f` has a replacement for the operation at an index of
its block. -/
def ofOps (body : Body) (f : Nat → Op → Option (Op × List Event)) : Change :=
  let steps := body.blocks.map fun b => b.ops.mapIdx fun i op => (op, f i op)
  { body := { body with
      blocks := body.blocks.zipWith (fun b steps =>
        { b with ops := steps.map fun (op, step) => (step.map Prod.fst).getD op }) steps }
    events := steps.toList.flatMap fun steps => steps.flatMap fun (_, step) =>
      (step.map Prod.snd).getD []
    changed := steps.any fun steps => steps.any fun (_, step) => step.isSome }

def ofCount (body : Body) (events : List Event) (count : Nat) : Change :=
  { body, events, changed := 0 < count }

end Change

def eventAt (kind : EventKind) (method : MethodId) (location : Nat) (message source : String) :
    Event :=
  { kind, method := some method, location := some location, message, source := some source }

end BytecodeOpt.Pass
