import BytecodeOpt.Compiler.Desugaring

/-!
# Compilation of a program

`optimize` processes methods callees first.  Callers that met a callee before it was ready are
visited again, and so are methods with sequences that occur often enough to become methods of their
own.  `convert` processes every method once without optimising it.  `widenStrings` generates code
again once it is known which strings need the wide form of reference.
-/

namespace BytecodeOpt

namespace Compiler

def ofOptions (options : Options) : Except Options.Fault Compiler := do
  options.check
  return { options }

structure Output where
  highestString : Option String
  newClasses : List TypeName
  outlined : Nat
  deriving DecidableEq, Repr, Inhabited

end Compiler

namespace Session

def batchEvents (number : Nat) (batch : CallGraph.Batch) : List Event :=
  { kind := .batchStarted
    message := s!"batch {number}: {batch.methods.length} methods" }
  :: if batch.brokeCycle then
    [{ kind := .cycleBroken, message := s!"batch {number} runs sequentially" }]
  else []

def processGraph (c : Compiler) (stage : Stage) : Nat → Nat → CallGraph → SessionM Unit
  | 0, _, _ => pure ()
  | batches + 1, number, graph =>
    if graph.isEmpty then pure ()
    else do
      let (batch, graph) ← Error.raise .schedule graph.next
      record (batchEvents number batch)
      processBatch c { stage with callGraph := some graph } batch
      processGraph c stage batches (number + 1) graph

/-- Processes all methods, callees first.  Every batch has a method, so there are no more batches
than methods. -/
def discover (c : Compiler) (lambdaNames : Option LambdaNames) : SessionM Unit := do
  let graph := CallGraph.ofProgram (← get).program c.lens fun _ => true
  let stage : Stage := {
    passes := Pass.standard
    inliner := some (.first c.options.inlining)
    lambdaNames
    outline := if c.options.outline.isEnabled then .identify else .disabled }
  processGraph c stage graph.remaining 1 graph

def inlineAgain (c : Compiler) (lambdaNames : Option LambdaNames) : SessionM Unit := do
  let waiting := (← get).findings.doubleInlining
  let stage : Stage := {
    passes := Pass.standard
    inliner := some (.revisit c.options.inlining waiting.targets)
    lambdaNames }
  waiting.callers.forM (revisit c stage)

def outline (c : Compiler) (lambdaNames : Option LambdaNames) : SessionM (List TypeName) := do
  let s ← get
  let selection := Outline.Selection.ofCensus s.findings.census s.program c.options.outline
  if !c.options.outline.isEnabled || selection.isEmpty then
    return []
  let cls := selection.supportClass
  compileClass c { passes := Pass.standard } cls
  let stage : Stage := { passes := Pass.standard, lambdaNames, outline := .apply selection }
  selection.reprocess.forM (revisit c stage)
  return [cls.type]

def clearProcessed : SessionM Unit := do
  setProgram ((← get).program.mapMethods Method.markWaiting)

def optimize (c : Compiler) : SessionM Compiler.Output := do
  let lambdaNames ← prepare c
  discover c lambdaNames
  inlineAgain c lambdaNames
  let outlined ← outline c lambdaNames
  let desugared ← finishDesugaring c Pass.standard lambdaNames.isSome
  clearProcessed
  let findings := (← get).findings
  return {
    highestString := findings.highestString
    newClasses := outlined ++ desugared
    outlined := findings.outlined }

def convert (c : Compiler) : SessionM Compiler.Output := do
  let lambdaNames ← prepare c
  let waiting := (← get).program.methods.filter fun m => !m.isProcessed
  processEach c { passes := Pass.conversion, lambdaNames, propagatesFieldValues := false }
    (waiting.map Method.id)
  let desugared ← finishDesugaring c Pass.conversion lambdaNames.isSome
  clearProcessed
  return {
    highestString := (← get).findings.highestString
    newClasses := desugared
    outlined := 0 }

def widenStrings (c : Compiler) (id : MethodId) (first : String) : SessionM Unit := do
  match (← get).program.method? id with
  | none => throw (.program (.missingMethod id))
  | some method =>
    match ← Error.raise (.lift id) (Ssa.lift? method) with
    | none => pure ()
    | some body =>
      let ins := (method.code.map Code.ins).getD 0
      let code ← attempt do
        let body ← c.dropDeadCode id body
        c.generate body ins (some first)
      record [{ kind := .codeRegenerated
                method := some id
                message := s!"{code.instructionCount} instructions, jumbo strings from "
                  ++ Text.quote first }]
      setProgram ((← get).program.modifyMethod id fun m => { m with code := some code })

end Session

end BytecodeOpt
