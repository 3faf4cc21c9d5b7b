import BytecodeOpt.Allocation.Resolution
import BytecodeOpt.Compiler.Error
import BytecodeOpt.Compiler.Journal
import BytecodeOpt.Inliner.Scope
import BytecodeOpt.RegisterCode.Cleanup

/-!
# Processing of one method

Lifts the code, runs the passes, and generates code again.  The program is only read.
-/

namespace BytecodeOpt

structure Compiler where
  options : Options := {}
  lens : Lens := .identity
  dumps : Bool := false
  deriving Repr, Inhabited

structure Stage where
  passes : List Pass
  inliner : Option Inliner := none
  callGraph : Option CallGraph := none
  lambdaNames : Option LambdaNames := none
  outline : Outline.Mode := .disabled
  propagatesFieldValues : Bool := true

structure Processed where
  id : MethodId
  code : Option Code := none
  scope : InlineScope := .never
  isSimple : Bool := false
  summary : Pass.Summary := {}
  deriving Repr, Inhabited

abbrev Attempt := ExceptT Error (StateM Journal)

namespace Attempt

def record (events : List Event) : Attempt Unit := modify (·.record events)

end Attempt

def libraryReturns : List (MethodId × Nat) :=
  ["java.lang.StringBuilder", "java.lang.StringBuffer"].flatMap fun builder =>
    ["java.lang.String", "java.lang.Object", "java.lang.CharSequence", "int", "long", "char",
      "boolean", "float", "double"].map fun argument =>
        ({ holder := ⟨builder⟩
           name := "append"
           proto := { returnType := ⟨builder⟩, parameters := [⟨argument⟩] } }, 0)

namespace Compiler

def dump (c : Compiler) (method : MethodId) (title text : String) : Attempt Unit :=
  if c.dumps then modify (·.dump method title text) else pure ()

def generate (c : Compiler) (body : Ssa.Body) (ins : Nat) (firstWide : Option String) :
    Attempt Code := do
  let method := body.method
  let outcome := Allocation.allocate body ins c.options.maxRegisters c.options.checksSsa
  .record outcome.events
  let allocated ← Error.raise (.allocation method) outcome.code
  c.dump method "After register allocation" allocated.text
  let (cleaned, count) := allocated.cleanup c.options
  .record (RegisterCode.cleanupEvents method count)
  c.dump method "Final IR (non-SSA)" cleaned.text
  Error.raise (.lowering method) (cleaned.lower firstWide)

def contextOf (c : Compiler) (program : Program) (stage : Stage) (method : Method) :
    Pass.Context where
  program
  options := c.options
  method
  lens := c.lens
  callGraph := stage.callGraph
  inliner := stage.inliner
  lambdaNames := stage.lambdaNames
  outline := stage.outline
  propagatesFieldValues := stage.propagatesFieldValues
  libraryReturns

def dropDeadCode (c : Compiler) (method : MethodId) (body : Ssa.Body) : Attempt Ssa.Body := do
  let change := Pass.DeadCode.run method c.options.maxDeadCodeRounds body
  .record change.events
  return change.body

def processBody (c : Compiler) (program : Program) (stage : Stage) (method : Method)
    (body : Ssa.Body) : Attempt Processed := do
  let id := method.id
  c.dump id "Initial IR (SSA)" body.text
  let (state, _, result) := Pass.runAll (c.contextOf program stage method) stage.passes { body }
  .record state.events
  let _ ← Error.raise Error.ofPass result
  let body ← c.dropDeadCode id state.body
  c.dump id "Optimized IR (SSA)" body.text
  let maxSize := c.options.inlining.simpleMethodMaxSize
  let ins := (method.code.map Code.ins).getD 0
  let code ← c.generate body ins none
  return {
    id
    code
    scope := Inliner.scope program method body maxSize
    isSimple := Inliner.isSimple body id maxSize
    summary := state.summary }

def process (c : Compiler) (program : Program) (stage : Stage) (id : MethodId) :
    Attempt Processed := do
  match program.method? id with
  | none => throw (.goneBeforeProcessing id)
  | some method =>
    if !c.options.optimizes id then
      return { id }
    match ← Error.raise (.lift id) (Ssa.lift? method) with
    | none => return { id }
    | some body => c.processBody program stage method body

end Compiler

end BytecodeOpt
