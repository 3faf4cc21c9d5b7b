import BytecodeOpt.Member

/-!
# Events

What a compilation reports about its own work.
-/

namespace BytecodeOpt

inductive EventKind where
  | callRetargeted
  | fieldValuePropagated
  | switchMapRemoved
  | methodInlined
  | subexpressionEliminated
  | arrayConstructed
  | constantFolded
  | branchSimplified
  | handlerRemoved
  | instructionRemoved
  | blockRemoved
  | lambdaDesugared
  | interfaceCallRetargeted
  | suppressedCallReplaced
  | sequenceOutlined
  | liveRangeShortened
  | argumentsLogged
  | intervalSplit
  | peepholeApplied
  | returnsArgumentIdentified
  | outlineCandidateFound
  | doubleInlineRequested
  | cycleBroken
  | batchStarted
  | methodProcessed
  | codeRegenerated
  | classSynthesized
  | info
  | warning
  | error
  deriving DecidableEq, Repr, Inhabited

namespace EventKind

def text : EventKind → String
  | .callRetargeted => "call retargeted"
  | .fieldValuePropagated => "field value propagated"
  | .switchMapRemoved => "switch map removed"
  | .methodInlined => "method inlined"
  | .subexpressionEliminated => "subexpression eliminated"
  | .arrayConstructed => "array constructed"
  | .constantFolded => "constant folded"
  | .branchSimplified => "branch simplified"
  | .handlerRemoved => "handler removed"
  | .instructionRemoved => "instruction removed"
  | .blockRemoved => "block removed"
  | .lambdaDesugared => "lambda desugared"
  | .interfaceCallRetargeted => "interface call retargeted"
  | .suppressedCallReplaced => "suppressed call rewritten"
  | .sequenceOutlined => "sequence outlined"
  | .liveRangeShortened => "live range shortened"
  | .argumentsLogged => "arguments logged"
  | .intervalSplit => "interval split"
  | .peepholeApplied => "peephole applied"
  | .returnsArgumentIdentified => "returns argument identified"
  | .outlineCandidateFound => "outline candidate found"
  | .doubleInlineRequested => "double inline requested"
  | .cycleBroken => "cycle broken"
  | .batchStarted => "batch started"
  | .methodProcessed => "method processed"
  | .codeRegenerated => "code regenerated"
  | .classSynthesized => "class synthesized"
  | .info => "info"
  | .warning => "warning"
  | .error => "error"

instance : ToString EventKind := ⟨text⟩

def transformations : List EventKind :=
  [.callRetargeted, .fieldValuePropagated, .switchMapRemoved, .methodInlined,
    .subexpressionEliminated, .arrayConstructed, .constantFolded, .branchSimplified,
    .handlerRemoved, .instructionRemoved, .blockRemoved, .lambdaDesugared,
    .interfaceCallRetargeted, .suppressedCallReplaced, .sequenceOutlined, .liveRangeShortened,
    .argumentsLogged, .intervalSplit, .peepholeApplied]

def findings : List EventKind :=
  [.returnsArgumentIdentified, .outlineCandidateFound, .doubleInlineRequested, .cycleBroken]

def milestones : List EventKind :=
  [.batchStarted, .methodProcessed, .codeRegenerated, .classSynthesized]

def diagnostics : List EventKind := [.info, .warning, .error]

def all : List EventKind := transformations ++ findings ++ milestones ++ diagnostics

def ofText? (s : String) : Option EventKind := all.find? (·.text = s)

theorem ofText?_text (kind : EventKind) : ofText? kind.text = some kind := by
  cases kind <;> rfl

def isTransformation (kind : EventKind) : Bool := transformations.contains kind

def isDiagnostic (kind : EventKind) : Bool := diagnostics.contains kind

end EventKind

structure Event where
  kind : EventKind
  method : Option MethodId := none
  location : Option Nat := none
  message : String := kind.text
  source : Option String := none
  deriving DecidableEq, Repr, Inhabited

def Event.text (e : Event) : String :=
  s!"[{e.kind}] " ++ (e.method.map fun m => s!"{m}: ").getD "" ++ e.message

instance : ToString Event := ⟨Event.text⟩

end BytecodeOpt
