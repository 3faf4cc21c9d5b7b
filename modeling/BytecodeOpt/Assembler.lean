import BytecodeOpt.Code
import BytecodeOpt.Total

/-!
# Assembly

Code written with labels in place of instruction indices.  A label stands for the number of
instructions emitted before it is bound, so branches may refer to it before or after that point.
-/

namespace BytecodeOpt

namespace Instruction

def mapTargetsM {ε : Type} (f : Nat → Except ε Nat) : Instruction → Except ε Instruction
  | .goto target => return .goto (← f target)
  | .branch cond left right target => return .branch cond left right (← f target)
  | .switch value keys targets => return .switch value keys (← targets.mapM f)
  | other => return other

end Instruction

namespace Assembler

abbrev Label := Nat

inductive Step where
  | bind (label : Label)
  | emit (instruction : Instruction)
  | jump (instruction : Instruction)
  | guarded (range : TryRange)
  deriving DecidableEq, Repr, Inhabited

inductive Fault where
  | boundTwice (label : Label)
  | neverBound (label : Label)
  deriving DecidableEq, Repr, Inhabited

def Fault.message : Fault → String
  | .boundTwice label => s!"Label {label} is bound twice"
  | .neverBound label => s!"Label {label} is never bound"

namespace Step

def size : Step → Nat
  | .emit _ | .jump _ => 1
  | _ => 0

/-! ## Common steps -/

def goto (target : Label) : Step := .jump (.goto target)

def ifCompare (cond : Condition) (left right : Reg) (target : Label) : Step :=
  .jump (.branch cond left (some right) target)

def ifZero (cond : Condition) (left : Reg) (target : Label) : Step :=
  .jump (.branch cond left none target)

def switch (value : Reg) (cases : List (Int × Label)) : Step :=
  .jump (.switch value (cases.map Prod.fst) (cases.map Prod.snd))

def constInt (dest : Reg) (n : Int) : Step := .emit (.const dest (.int (.ofInt n)))

def constLong (dest : Reg) (n : Int) : Step := .emit (.const dest (.long (.ofInt n)))

def constNull (dest : Reg) : Step := .emit (.const dest .null)

def constString (dest : Reg) (value : String) : Step := .emit (.constString dest value false)

def binaryInt (op : BinaryOp) (dest left right : Reg) :
    Step := .emit (.binary op .int dest left right)

def returnVoid : Step := .emit (.ret none)

def returnValue (value : Reg) : Step := .emit (.ret (some value))

def invoke (kind : InvokeKind) (method : MethodId) (args : List Reg) : Step :=
  .emit (.invoke kind method args)

end Step

def position (steps : List Step) : Nat := totalOf Step.size steps

def positions (steps : List Step) : List Nat :=
  (List.range steps.length).map fun i => position (steps.take (i + 1))

def bindingsFrom : Nat → List Step → List (Label × Nat)
  | _, [] => []
  | index, .bind label :: rest => (label, index) :: bindingsFrom index rest
  | index, step :: rest => bindingsFrom (index + step.size) rest

def bindings (steps : List Step) : List (Label × Nat) := bindingsFrom 0 steps

def lastRepeated? : List Label → List Label → Option Label
  | _, [] => none
  | seen, label :: rest =>
    (lastRepeated? (label :: seen) rest).or (if label ∈ seen then some label else none)

def rebound? (steps : List Step) : Option Label :=
  lastRepeated? [] ((bindings steps).map Prod.fst)

def resolve (bound : List (Label × Nat)) (label : Label) : Except Fault Nat :=
  match bound.lookup label with
  | some index => .ok index
  | none => .error (.neverBound label)

def resolveInstruction (bound : List (Label × Nat)) : Step → Except Fault (List Instruction)
  | .emit instruction => return [instruction]
  | .jump instruction => return [← instruction.mapTargetsM (resolve bound)]
  | _ => return []

def resolveHandler (bound : List (Label × Nat)) (handler : Handler) : Except Fault Handler :=
  return { handler with target := ← resolve bound handler.target }

def resolveRange (bound : List (Label × Nat)) : Step → Except Fault (List TryRange)
  | .guarded range => do
    let start ← resolve bound range.start
    let stop ← resolve bound range.stop
    return [{ start, stop, handlers := ← range.handlers.mapM (resolveHandler bound) }]
  | _ => return []

/-- Resolves every label.  A label bound twice is reported before one that is missing, and missing
labels of branches before those of try ranges. -/
def assemble (registers ins : Nat) (steps : List Step) : Except Fault Code := do
  if let some label := rebound? steps then
    throw (.boundTwice label)
  let bound := bindings steps
  let instructions ← steps.mapM (resolveInstruction bound)
  let tries ← steps.mapM (resolveRange bound)
  return { registers, ins, instructions := instructions.flatten, tries := tries.flatten }

end Assembler

end BytecodeOpt
