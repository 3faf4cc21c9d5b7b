import BytecodeOpt.Allocation.Fault
import BytecodeOpt.CallGraph.Schedule
import BytecodeOpt.Pass
import BytecodeOpt.RegisterCode.Lowering

/-!
# Errors

Everything that can stop a compilation.
-/

namespace BytecodeOpt

inductive ErrorKind where
  | invariant
  | malformed
  | configuration
  | callGraph
  | registerPressure
  | crash
  deriving DecidableEq, Repr, Inhabited

inductive Error where
  | options (fault : Options.Fault)
  | program (fault : Program.Fault)
  | lift (method : MethodId) (fault : Ssa.LiftFault)
  | violation (method : MethodId) (violation : Ssa.Violation)
  | afterPass (pass : Pass) (method : MethodId) (violation : Ssa.Violation)
  | schedule (fault : CallGraph.Fault)
  | allocation (method : MethodId) (fault : Allocation.Fault)
  | lowering (method : MethodId) (fault : RegisterCode.Fault)
  | goneBeforeProcessing (method : MethodId)
  | goneBeforeCommit (method : MethodId)
  | goneBeforeRevisit (method : MethodId)
  | crash
  deriving DecidableEq, Repr, Inhabited

namespace Error

def ofPass : Pass.Fault → Error
  | .lift method fault => .lift method fault
  | .violation pass method found => .afterPass pass method found
  | .crash => .crash

def kind : Error → ErrorKind
  | .options _ => .configuration
  | .program _ | .lowering .. => .malformed
  | .lift _ fault => if fault.isInternal then .invariant else .malformed
  | .schedule _ => .callGraph
  | .allocation _ fault => if fault.isPressure then .registerPressure else .invariant
  | .violation .. | .afterPass .. => .invariant
  | .goneBeforeProcessing _ | .goneBeforeCommit _ | .goneBeforeRevisit _ => .invariant
  | .crash => .crash

def message : Error → String
  | .options fault => fault.message
  | .program fault => fault.message
  | .lift method fault => s!"{method}: {fault.message}"
  | .violation method found => s!"{method}: {found.message}"
  | .afterPass pass method found => s!"after {pass}: {method}: {found.message}"
  | .schedule fault => fault.message
  | .allocation method fault => fault.message method
  | .lowering method fault => fault.message method
  | .goneBeforeProcessing method => s!"Scheduled method {method} is not in the program"
  | .goneBeforeCommit method => s!"{method} left the program while being compiled"
  | .goneBeforeRevisit method => s!"{method} left the program before reprocessing"
  | .crash => "index out of bounds"

def raise {m : Type → Type} {ε α : Type} [Monad m] [MonadExceptOf Error m] (wrap : ε → Error) :
    Except ε α → m α
  | .ok a => pure a
  | .error fault => throw (wrap fault)

end Error

end BytecodeOpt
