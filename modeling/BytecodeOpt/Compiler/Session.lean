import BytecodeOpt.Compiler.Processing

/-!
# Sessions

A program under compilation, with what was found out that concerns more than one method.  What came
of a method is put into the program by `commit`.
-/

namespace BytecodeOpt

structure Findings where
  highestString : Option String := none
  doubleInlining : DoubleInlining := {}
  census : Outline.Census := {}
  usesSuppressionSupport : Bool := false
  outlined : Nat := 0
  lambdas : List (TypeName × CallSite) := []

namespace Findings

def add (f : Findings) (p : Processed) (code : Option Code) : Findings where
  highestString := ((code.bind Code.highestString?).toList).foldl Code.higher f.highestString
  doubleInlining := f.doubleInlining.record p.id p.summary.waiting
  census := f.census.record p.id p.summary.outlineCandidates
  usesSuppressionSupport := f.usesSuppressionSupport || p.summary.usesSuppressionSupport
  outlined := f.outlined + p.summary.outlined
  lambdas := f.lambdas ++ p.summary.lambdas

end Findings

structure Session where
  program : Program
  journal : Journal := {}
  findings : Findings := {}

abbrev SessionM := ExceptT Error (StateM Session)

namespace Session

def setProgram (program : Program) : SessionM Unit := modify fun s => { s with program }

def record (events : List Event) : SessionM Unit :=
  modify fun s => { s with journal := s.journal.record events }

def attempt {α : Type} (a : Attempt α) : SessionM α := do
  let s ← get
  let (result, journal) := a.run s.journal
  set { s with journal }
  Error.raise id result

def commitEvents (p : Processed) : List Event :=
  (p.code.map fun code =>
    { kind := .codeRegenerated
      method := some p.id
      message := s!"{code.registers} registers, {code.instructionCount} instructions" }).toList
  ++ [{ kind := .methodProcessed
        method := some p.id
        message := s!"inlining constraint {p.scope}" }]

def updateMethod (p : Processed) (m : Method) : Method :=
  { m with
    code := p.code.or m.code
    returnsArgument := p.summary.returnsArgument
    isSimple := p.isSimple }.markProcessed p.scope

def commit (p : Processed) : SessionM Unit := do
  let s ← get
  match s.program.method? p.id with
  | none => throw (.goneBeforeCommit p.id)
  | some method =>
    set { s with
      program := s.program.modifyMethod p.id (updateMethod p)
      journal := s.journal.record (commitEvents p)
      findings := s.findings.add p (updateMethod p method).code }

def processOne (c : Compiler) (stage : Stage) (id : MethodId) : SessionM Unit := do
  let s ← get
  commit (← attempt (c.process s.program stage id))

def processEach (c : Compiler) (stage : Stage) (ids : List MethodId) : SessionM Unit :=
  ids.forM (processOne c stage)

def processTogether (c : Compiler) (stage : Stage) (ids : List MethodId) : SessionM Unit := do
  let s ← get
  let results ← ids.mapM fun id => attempt (c.process s.program stage id)
  results.forM commit

def processBatch (c : Compiler) (stage : Stage) (batch : CallGraph.Batch) : SessionM Unit :=
  if c.options.isolatesBatches && !batch.brokeCycle && 1 < batch.methods.length then
    processTogether c stage batch.methods
  else processEach c stage batch.methods

def revisit (c : Compiler) (stage : Stage) (id : MethodId) : SessionM Unit := do
  let s ← get
  if (s.program.method? id).isNone then
    throw (.goneBeforeRevisit id)
  setProgram (s.program.modifyMethod id Method.markWaiting)
  processOne c stage id

def addClass (cls : Class) : SessionM Unit := do
  setProgram (← Error.raise .program ((← get).program.addClass cls))

def compileClass (c : Compiler) (stage : Stage) (cls : Class) : SessionM Unit := do
  record [{ kind := .classSynthesized
            message := s!"{cls.type} with {cls.methods.length} methods" }]
  addClass cls
  processEach c stage (cls.methods.map Method.id)

end Session

end BytecodeOpt
