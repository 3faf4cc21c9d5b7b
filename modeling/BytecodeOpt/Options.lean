import BytecodeOpt.Member
import BytecodeOpt.Options.Attributes

/-!
# Options

What a compilation is asked to do.
-/

namespace BytecodeOpt

inductive Desugaring where
  | off
  | auto
  deriving DecidableEq, Repr, Inhabited

def Desugaring.text : Desugaring → String
  | .off => "off"
  | .auto => "auto"

instance : ToString Desugaring := ⟨Desugaring.text⟩

structure OutlineOptions where
  isEnabled : Bool := true
  className : String := "GeneratedOutlineSupport"
  methodStem : String := "outline"
  minSize : Nat := 3
  maxSize : Nat := 99
  threshold : Nat := 20
  deriving DecidableEq, Repr, Inhabited

structure InliningOptions where
  budget : Nat := 50
  simpleMethodMaxSize : Nat := 5
  /-- The budget when a caller is visited again for callees that were not ready before. -/
  doubleInlineBudget : Nat := 200
  deriving DecidableEq, Repr, Inhabited

structure Options where
  keepsLines : Bool := false
  isMinifying : Bool := false
  checksSsa : Bool := true
  isolatesBatches : Bool := true
  minApiLevel : Nat := 1
  desugarsLambdas : Bool := true
  interfaceMethods : Desugaring := .off
  tryWithResources : Desugaring := .off
  removesSwitchMaps : Bool := true
  inlines : Bool := true
  inlining : InliningOptions := {}
  outline : OutlineOptions := {}
  maxDeadCodeRounds : Nat := 16
  maxRegisters : Nat := 65535
  peepholeRounds : Nat := 2
  methodFilter : List String := []
  logArgumentsFilter : List String := []
  attributes : Attributes := {}
  deriving DecidableEq, Repr, Inhabited

namespace Options

inductive Fault where
  | attributes (fault : Attributes.Fault)
  | emptyOutlineRange (minSize maxSize : Nat)
  | zeroOutlineThreshold
  | emptyOutlineName
  | noRegisters
  deriving DecidableEq, Repr, Inhabited

def Fault.message : Fault → String
  | .attributes fault => fault.message
  | .emptyOutlineRange minSize maxSize =>
    s!"Outline size range [{minSize}, {maxSize}] is empty. "
      ++ "Check outline.min_size and outline.max_size."
  | .zeroOutlineThreshold =>
    "Outline threshold must be at least 1. Check outline.threshold."
  | .emptyOutlineName => "Outline class name and method prefix must not be empty."
  | .noRegisters => "max_registers must be at least 1."

def minimal : Options where
  desugarsLambdas := false
  removesSwitchMaps := false
  inlines := false
  outline := { isEnabled := false }

def withOutline (o : Options) (threshold minSize maxSize : Nat) : Options :=
  { o with outline := { o.outline with isEnabled := true, threshold, minSize, maxSize } }

def checkOutline (o : OutlineOptions) : Except Fault Unit :=
  if o.isEnabled then
    if o.minSize = 0 || o.maxSize < o.minSize then .error (.emptyOutlineRange o.minSize o.maxSize)
    else if o.threshold = 0 then .error .zeroOutlineThreshold
    else if o.className.isEmpty || o.methodStem.isEmpty then .error .emptyOutlineName
    else .ok ()
  else .ok ()

def check (o : Options) : Except Fault Unit := do
  (o.attributes.check o.isMinifying).mapError .attributes
  checkOutline o.outline
  if o.maxRegisters = 0 then throw .noRegisters

def optimizes (o : Options) (m : MethodId) : Bool :=
  o.methodFilter.isEmpty || o.methodFilter.contains m.qualifiedName

def logsArguments (o : Options) (m : MethodId) : Bool :=
  o.logArgumentsFilter.contains m.qualifiedName

def interfaceMethodsLevel : Nat := 24

def helpersLevel : Nat := 19

def movesInterfaceMethods (o : Options) : Bool :=
  o.interfaceMethods == .auto && o.minApiLevel < interfaceMethodsLevel

def replacesSuppression (o : Options) : Bool :=
  o.tryWithResources == .auto && o.minApiLevel < helpersLevel

def hasHelpers (o : Options) : Bool := helpersLevel ≤ o.minApiLevel

end Options

end BytecodeOpt
