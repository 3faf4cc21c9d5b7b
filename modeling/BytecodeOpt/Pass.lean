import BytecodeOpt.Pass.ArgumentLog
import BytecodeOpt.Pass.ArrayLiterals
import BytecodeOpt.Pass.Branches
import BytecodeOpt.Pass.CommonSubexpressions
import BytecodeOpt.Pass.ConstantFolding
import BytecodeOpt.Pass.ConstantPlacement
import BytecodeOpt.Pass.DeadCode
import BytecodeOpt.Pass.FieldValues
import BytecodeOpt.Pass.Handlers
import BytecodeOpt.Pass.Inlining
import BytecodeOpt.Pass.InterfaceMethods
import BytecodeOpt.Pass.KnownCalls
import BytecodeOpt.Pass.Lambdas
import BytecodeOpt.Pass.Outlining
import BytecodeOpt.Pass.References
import BytecodeOpt.Pass.ReturnedArguments
import BytecodeOpt.Pass.SuppressedExceptions
import BytecodeOpt.Pass.SwitchMaps
import BytecodeOpt.Ssa.Check

/-!
# Passes

The changes of a method body, in the order they run, with what they need to know and what they find
out about the method.
-/

namespace BytecodeOpt

inductive Pass where
  | references
  | fieldValues
  | switchMaps
  | inlining
  | knownCalls
  | commonSubexpressions
  | arrayLiterals
  | returnedArguments
  | constantSplitting
  | constantFolding
  | branches
  | handlers
  | deadCode
  | suppressedExceptions
  | lambdas
  | interfaceMethods
  | outlining
  | lateConstants
  | returnsArgument
  | argumentLog
  deriving DecidableEq, Repr, Inhabited

namespace Pass

open Ssa

def text : Pass → String
  | .references => "lens-rewrite"
  | .fieldValues => "member-value-propagation"
  | .switchMaps => "switch-map-removal"
  | .inlining => "inlining"
  | .knownCalls => "long-compare-normalization"
  | .commonSubexpressions => "cse"
  | .arrayLiterals => "array-construction"
  | .returnedArguments => "move-result-folding"
  | .constantSplitting => "constant-splitting"
  | .constantFolding => "constant-folding"
  | .branches => "conditional-simplification"
  | .handlers => "catch-handler-removal"
  | .deadCode => "dead-code-elimination"
  | .suppressedExceptions => "try-with-resources-desugaring"
  | .lambdas => "lambda-desugaring"
  | .interfaceMethods => "interface-method-desugaring"
  | .outlining => "outlining"
  | .lateConstants => "live-range-shortening"
  | .returnsArgument => "returns-argument"
  | .argumentLog => "argument-logging"

instance : ToString Pass := ⟨text⟩

def standard : List Pass :=
  [.references, .fieldValues, .switchMaps, .inlining, .knownCalls, .commonSubexpressions,
    .arrayLiterals, .returnedArguments, .constantSplitting, .constantFolding, .branches, .handlers,
    .deadCode, .suppressedExceptions, .lambdas, .interfaceMethods, .outlining, .lateConstants,
    .returnsArgument, .argumentLog]

/-- The passes that the result has to go through even when nothing is optimised. -/
def conversion : List Pass :=
  [.references, .deadCode, .suppressedExceptions, .lambdas, .interfaceMethods, .argumentLog]

def ofText? (s : String) : Option Pass := standard.find? (·.text = s)

theorem ofText?_text (p : Pass) : ofText? p.text = some p := by
  cases p <;> rfl

structure Context where
  program : Program
  options : Options
  method : Method
  lens : Lens := .identity
  callGraph : Option CallGraph := none
  inliner : Option Inliner := none
  lambdaNames : Option LambdaNames := none
  outline : Outline.Mode := .disabled
  propagatesFieldValues : Bool := true
  libraryReturns : List (MethodId × Nat) := []

def Context.returnsArgument (ctx : Context) (m : MethodId) : Option Nat :=
  match ctx.program.method? m with
  | some method => method.returnsArgument
  | none => lookupLast m ctx.libraryReturns

structure Summary where
  returnsArgument : Option Nat := none
  inlined : List MethodId := []
  waiting : List MethodId := []
  outlineCandidates : List Outline.Shape := []
  outlined : Nat := 0
  usesSuppressionSupport : Bool := false
  lambdas : List (TypeName × CallSite) := []
  deriving Repr, Inhabited

structure State where
  body : Body
  summary : Summary := {}
  events : List Event := []
  deriving Repr, Inhabited

inductive Fault where
  | lift (method : MethodId) (fault : LiftFault)
  | violation (pass : Pass) (method : MethodId) (violation : Violation)
  /-- A switch has no target for a key. -/
  | crash
  deriving DecidableEq, Repr, Inhabited

def State.take (s : State) (r : Change) : State × Bool :=
  ({ s with body := r.body, events := s.events ++ r.events }, r.changed)

def isEnabled (ctx : Context) : Pass → Bool
  | .references => !ctx.lens.isIdentity
  | .fieldValues => ctx.propagatesFieldValues
  | .switchMaps => ctx.options.removesSwitchMaps
  | .inlining => ctx.options.inlines && ctx.inliner.isSome
  | .suppressedExceptions => ctx.options.replacesSuppression
  | .lambdas => ctx.lambdaNames.isSome
  | .interfaceMethods => ctx.options.movesInterfaceMethods
  | .outlining => match ctx.outline with
    | .disabled => false
    | _ => true
  | .argumentLog => !ctx.options.logArgumentsFilter.isEmpty
  | _ => true

def inline (ctx : Context) (inliner : Inliner) (s : State) : State × Except Fault Bool :=
  let progress := Inlining.run
    { program := ctx.program, caller := ctx.method, inliner, callGraph := ctx.callGraph }
    s.summary.waiting s.body
  let state := { s with
    body := progress.body
    events := s.events ++ progress.events
    summary := { s.summary with
      inlined := s.summary.inlined ++ progress.inlined
      waiting := progress.waiting } }
  match progress.fault with
  | some (callee, fault) => (state, .error (.lift callee fault))
  | none => (state, .ok !progress.inlined.isEmpty)

def outline (ctx : Context) (s : State) : State × Bool :=
  match ctx.outline with
  | .disabled => (s, false)
  | .identify =>
    let windows := Outline.windows ctx.program ctx.options.outline s.body
    ({ s with
        events := s.events ++ Outlining.found ctx.method.id windows
        summary := { s.summary with
          outlineCandidates :=
            s.summary.outlineCandidates ++ windows.map Outline.Window.shape } }, false)
  | .apply selection =>
    let r := Outlining.apply ctx.method.id ctx.program ctx.options.outline selection s.body
    let (s, changed) := s.take r
    ({ s with summary := { s.summary with outlined := s.summary.outlined + r.events.length } },
      changed)

def noteReturnedArgument (ctx : Context) (s : State) : State :=
  let returned := ReturnedArguments.common? s.body
  { s with
    summary := { s.summary with returnsArgument := returned }
    events := s.events
      ++ (returned.map (ReturnedArguments.identified ctx.method.id)).toList }

def run (pass : Pass) (ctx : Context) (s : State) : State × Except Fault Bool :=
  let id := ctx.method.id
  let done := fun (result : State × Bool) => (result.1, Except.ok result.2)
  match pass with
  | .references => done (s.take (References.run id ctx.lens s.body))
  | .fieldValues =>
    if ctx.propagatesFieldValues then done (s.take (FieldValues.run id ctx.program s.body))
    else (s, .ok false)
  | .switchMaps =>
    if ctx.options.removesSwitchMaps then done (s.take (SwitchMaps.run id ctx.program s.body))
    else (s, .ok false)
  | .inlining =>
    match ctx.inliner with
    | some inliner => inline ctx inliner s
    | none => (s, .ok false)
  | .knownCalls => done (s.take (KnownCalls.run id (!ctx.options.hasHelpers) s.body))
  | .commonSubexpressions => done (s.take (CommonSubexpressions.run id s.body))
  | .arrayLiterals => done (s.take (ArrayLiterals.run id s.body))
  | .returnedArguments =>
    done (s.take (ReturnedArguments.run id ctx.program ctx.returnsArgument s.body))
  | .constantSplitting => done (s.take (ConstantPlacement.split id s.body))
  | .constantFolding =>
    match ConstantFolding.run id s.body with
    | some change => done (s.take change)
    | none => (s, .error .crash)
  | .branches => done (s.take (Branches.run id s.body))
  | .handlers => done (s.take (Handlers.run id s.body))
  | .deadCode => done (s.take (DeadCode.run id ctx.options.maxDeadCodeRounds s.body))
  | .suppressedExceptions =>
    let (s, changed) := s.take (SuppressedExceptions.run id s.body)
    let uses := s.summary.usesSuppressionSupport || changed
    ({ s with summary := { s.summary with usesSuppressionSupport := uses } }, .ok changed)
  | .lambdas =>
    match ctx.lambdaNames with
    | none => (s, .ok false)
    | some names =>
      let used := Lambdas.used names s.body
      let (s, changed) := s.take (Lambdas.run id names s.body)
      ({ s with summary := { s.summary with lambdas := s.summary.lambdas ++ used } }, .ok changed)
  | .interfaceMethods => done (s.take (InterfaceMethods.run id ctx.program s.body))
  | .outlining => done (outline ctx s)
  | .lateConstants => done (s.take (ConstantPlacement.shorten id s.body))
  | .returnsArgument => (noteReturnedArgument ctx s, .ok false)
  | .argumentLog =>
    if ctx.options.logsArguments id then done (s.take (ArgumentLog.run id s.body))
      else (s, .ok false)

/-! ## Several passes -/

structure Report where
  pass : Pass
  changed : Bool
  body : Body
  deriving Repr, Inhabited

def runChecked (pass : Pass) (ctx : Context) (s : State) : State × Except Fault Bool :=
  let (s, result) := pass.run ctx s
  let checked := do
    let changed ← result
    if ctx.options.checksSsa then
      s.body.check.mapError (.violation pass s.body.method)
    return changed
  (s, checked)

/-- Runs the enabled passes in order.  Stops at the first fault and keeps the state it leaves. -/
def runAll (ctx : Context) : List Pass → State → State × List Report × Except Fault Bool
  | [], s => (s, [], .ok false)
  | pass :: rest, s =>
    if pass.isEnabled ctx then
      match pass.runChecked ctx s with
      | (s, .error fault) => (s, [], .error fault)
      | (s, .ok changed) =>
        let (final, reports, result) := runAll ctx rest s
        (final, { pass, changed, body := s.body } :: reports, result.map (changed || ·))
    else runAll ctx rest s

end Pass

end BytecodeOpt
