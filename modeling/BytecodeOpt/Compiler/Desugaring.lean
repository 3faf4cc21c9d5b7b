import BytecodeOpt.Compiler.Session

/-!
# Classes made during a compilation

Lambdas, support for suppressed exceptions, and companions of interfaces.
-/

namespace BytecodeOpt.Session

def markWithoutBody (m : Method) : Method :=
  if m.code.isNone || m.isAbstractOrNative then m.markProcessed .never else m

def dropDeserializeHooks (c : Class) : Class :=
  { c with direct := c.direct.filter (·.id.name ≠ Lambda.deserializeHook) }

def prepare (c : Compiler) : SessionM (Option LambdaNames) := do
  let program := (← get).program.mapMethods markWithoutBody
  if c.options.desugarsLambdas then
    let program := program.mapClasses dropDeserializeHooks
    setProgram program
    return some (LambdaNames.ofProgram program)
  setProgram program
  return none

def openImplementation (program : Program) (site : CallSite) : Program :=
  program.modifyMethod site.implementation fun m =>
    { m with flags := { m.flags with isPrivate := false } }

def usedLambdas (f : Findings) : List (TypeName × CallSite) :=
  f.lambdas.eraseDups.mergeSort fun a b => (compare a.1 b.1).isLE

def addLambdas (c : Compiler) (stage : Stage) : SessionM (List TypeName) := do
  let s ← get
  let used := usedLambdas s.findings
  setProgram ((used.map Prod.snd).foldl openImplementation s.program)
  used.forM fun (type, site) => compileClass c stage (Lambda.classFor type site)
  return used.map Prod.fst

def addSuppressionSupport (c : Compiler) (stage : Stage) : SessionM (List TypeName) := do
  let s ← get
  let cls := Pass.SuppressedExceptions.supportClass
  if s.findings.usesSuppressionSupport && !s.program.isProgramType cls.type then
    compileClass c stage cls
    return [cls.type]
  return []

def addCompanions : SessionM (List TypeName) := do
  let s ← get
  let companions := s.program.classes.filterMap Pass.InterfaceMethods.companionClass?
  setProgram (s.program.mapClasses Pass.InterfaceMethods.dropMoved)
  companions.forM addClass
  record (companions.map fun cls =>
    { kind := .classSynthesized, message := s!"{cls.type} companion" })
  return companions.map Class.type

def finishDesugaring (c : Compiler) (passes : List Pass) (replacesLambdas : Bool) :
    SessionM (List TypeName) := do
  let stage : Stage := { passes }
  let lambdas ← if replacesLambdas then addLambdas c stage else pure []
  let support ← addSuppressionSupport c stage
  let companions ← if c.options.movesInterfaceMethods then addCompanions else pure []
  return lambdas ++ support ++ companions

end BytecodeOpt.Session
