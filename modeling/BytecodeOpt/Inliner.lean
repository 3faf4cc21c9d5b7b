import BytecodeOpt.Options

/-!
# Inlining policy

How much a method may grow by the bodies copied into it.  Callers that met callees not ready yet are
visited again, with a larger budget for those callees.
-/

namespace BytecodeOpt

structure Inliner where
  budget : Nat
  doubleInlineBudget : Nat
  simpleMaxSize : Nat
  isRevisit : Bool := false
  targets : List MethodId := []
  deriving DecidableEq, Repr, Inhabited

namespace Inliner

def first (o : InliningOptions) : Inliner where
  budget := o.budget
  doubleInlineBudget := o.budget
  simpleMaxSize := o.simpleMethodMaxSize

def revisit (o : InliningOptions) (targets : List MethodId) : Inliner where
  budget := o.budget
  doubleInlineBudget := o.doubleInlineBudget
  simpleMaxSize := o.simpleMethodMaxSize
  isRevisit := true
  targets

def isTarget (i : Inliner) (m : MethodId) : Bool := i.targets.contains m

def widens (i : Inliner) (m : MethodId) : Bool := i.isRevisit && i.isTarget m

def budgetFor (i : Inliner) (m : MethodId) : Nat :=
  if i.widens m then i.doubleInlineBudget else i.budget

end Inliner

/-- Callers to visit again, in the order found, and the callees they wait for. -/
structure DoubleInlining where
  callers : List MethodId := []
  targets : List MethodId := []
  deriving DecidableEq, Repr, Inhabited

namespace DoubleInlining

def addNew (ms : List MethodId) (m : MethodId) : List MethodId :=
  if ms.contains m then ms else ms ++ [m]

def record (d : DoubleInlining) (caller : MethodId) (targets : List MethodId) : DoubleInlining :=
  if targets.isEmpty then d
  else { callers := addNew d.callers caller, targets := targets.foldl addNew d.targets }

def isEmpty (d : DoubleInlining) : Bool := d.callers.isEmpty

end DoubleInlining

end BytecodeOpt
