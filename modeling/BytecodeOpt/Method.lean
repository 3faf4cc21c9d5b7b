import BytecodeOpt.Code
import BytecodeOpt.Flags

/-!
# Methods

A method with its code and what the compilation so far has found out about it: whether it has been
processed, and then how far its body may be copied into other methods.
-/

namespace BytecodeOpt

inductive InlineScope where
  | never
  | sameClass
  | samePackage
  | always
  deriving DecidableEq, Ord, Repr, Inhabited

namespace InlineScope

def text : InlineScope → String
  | .never => "Never"
  | .sameClass => "SameClass"
  | .samePackage => "SamePackage"
  | .always => "Always"

instance : ToString InlineScope := ⟨text⟩

def all : List InlineScope := [.never, .sameClass, .samePackage, .always]

def ofText? (s : String) : Option InlineScope := all.find? (·.text = s)

theorem ofText?_text (s : InlineScope) : ofText? s.text = some s := by
  cases s <;> rfl

def rank : InlineScope → Nat
  | .never => 0
  | .sameClass => 1
  | .samePackage => 2
  | .always => 3

def meet (a b : InlineScope) : InlineScope := if a.rank ≤ b.rank then a else b

def allows (s : InlineScope) (callee caller : TypeName) : Bool :=
  match s with
  | .never => false
  | .sameClass => callee == caller
  | .samePackage => callee.package == caller.package
  | .always => true

end InlineScope

structure Method where
  id : MethodId
  flags : MethodFlags
  code : Option Code
  /-- The scope found when the method was last processed, none if it is waiting to be. -/
  processed : Option InlineScope := none
  returnsArgument : Option Nat := none
  isSimple : Bool := false
  processCount : Nat := 0
  deriving DecidableEq, Repr, Inhabited

namespace Method

def isPackagePrivate (m : Method) : Bool :=
  !m.flags.isPublic && !m.flags.isProtected && !m.flags.isPrivate

def isAbstractOrNative (m : Method) : Bool := m.flags.isAbstract || m.flags.isNative

def isVirtual (m : Method) : Bool :=
  !m.flags.isStatic && !m.flags.isPrivate && !m.flags.isConstructor

def isProcessed (m : Method) : Bool := m.processed.isSome

def markProcessed (m : Method) (scope : InlineScope) : Method :=
  { m with processed := some scope, processCount := m.processCount + 1 }

def markWaiting (m : Method) : Method := { m with processed := none }

def argumentCount (m : Method) : Nat := m.id.proto.arity + if m.flags.isStatic then 0 else 1

def stateText (m : Method) : String :=
  match m.processed with
  | some scope => s!"Processed({scope})"
  | none => "NotProcessed"

end Method

end BytecodeOpt
