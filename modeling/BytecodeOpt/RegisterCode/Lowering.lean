import BytecodeOpt.Assembler
import BytecodeOpt.RegisterCode

/-!
# Lowering of register code

Puts the blocks one after the other, without jumps to the block that follows.
-/

namespace BytecodeOpt.RegisterCode

inductive Fault where
  | missingBlock (block : BlockId)
  | missingHandler (block : BlockId)
  deriving DecidableEq, Repr, Inhabited

def Fault.message (method : MethodId) : Fault → String
  | .missingBlock block => s!"{method}: branch to missing block B{block}"
  | .missingHandler block => s!"{method}: handler B{block} is missing"

def getClass : MethodId where
  holder := .object
  name := "getClass"
  proto := { returnType := ⟨"java.lang.Class"⟩, parameters := [] }

def isWide (firstWide : Option String) (s : String) : Bool := firstWide.any fun first => first ≤ s

def resultOf (dest : Option Operand) : List Instruction :=
  (dest.map fun d => .moveResult (register d)).toList

def jumpUnlessNext (next : Option BlockId) (target : BlockId) : List Instruction :=
  if next = some target then [] else [.goto target]

def lowerOp (firstWide : Option String) (next : Option BlockId) : Op → List Instruction
  | .argument .. => []
  | .const dest (.string value) => [.constString (register dest) value (isWide firstWide value)]
  | .const dest value => [.const (register dest) value]
  | .move dest source => [.move (register dest) (register source)]
  | .moveException dest => [.moveException (register dest)]
  | .binary op type dest left right =>
    [.binary op type (register dest) (register left) (register right)]
  | .unary op dest source => [.unary op (register dest) (register source)]
  | .invoke kind method args dest => .invoke kind method (args.map register) :: resultOf dest
  | .invokeCustom site args dest => .invokeCustom site (args.map register) :: resultOf dest
  | .newInstance dest type => [.newInstance (register dest) type]
  | .newArray dest size type => [.newArray (register dest) (register size) type]
  | .filledNewArray dest type args => .filledNewArray type (args.map register) :: resultOf dest
  | .arrayGet dest array index type =>
    [.arrayGet (register dest) (register array) (register index) type]
  | .arrayPut value array index type =>
    [.arrayPut (register value) (register array) (register index) type]
  | .arrayLength dest array => [.arrayLength (register dest) (register array)]
  | .instanceGet dest object field => [.instanceGet (register dest) (register object) field]
  | .instancePut value object field => [.instancePut (register value) (register object) field]
  | .staticGet dest field => [.staticGet (register dest) field]
  | .staticPut value field => [.staticPut (register value) field]
  | .checkCast dest value type =>
    (if dest = value then [] else [.move (register dest) (register value)])
      ++ [.checkCast (register dest) type]
  | .instanceOf dest value type => [.instanceOf (register dest) (register value) type]
  | .nullCheck value => [.invoke .virtual getClass [register value]]
  | .line number => [.line number]
  | .goto target => jumpUnlessNext next target
  | .branch cond left right onTrue onFalse =>
    .branch cond (register left) (right.map register) onTrue :: jumpUnlessNext next onFalse
  | .switch value keys targets default =>
    .switch (register value) keys targets :: jumpUnlessNext next default
  | .ret value => [.ret (value.map register)]
  | .throw value => [.throw (register value)]

structure Placed where
  id : BlockId
  start : Nat
  instructions : List Instruction
  handlers : List Handler
  deriving DecidableEq, Repr, Inhabited

def Placed.stop (p : Placed) : Nat := p.start + p.instructions.length

def placeFrom (firstWide : Option String) : Nat → List RegisterBlock → List Placed
  | _, [] => []
  | start, b :: rest =>
    let next := rest.head?.map RegisterBlock.id
    let instructions := b.ops.flatMap (lowerOp firstWide next)
    { id := b.id, start, instructions, handlers := b.handlers }
      :: placeFrom firstWide (start + instructions.length) rest

/-- Where a block starts; the last one if there are several of a number. -/
def startOf (placed : List Placed) (fault : BlockId → Fault) (b : BlockId) : Except Fault Nat :=
  match placed.reverse.find? (·.id = b) with
  | some p => .ok p.start
  | none => .error (fault b)

/-- Adds a try range, extending the last one if it ends here and has the same handlers. -/
def addTry (tries : List TryRange) (t : TryRange) : List TryRange :=
  match tries.getLast? with
  | some last =>
    if last.stop = t.start && last.handlers = t.handlers then
      tries.dropLast ++ [{ last with stop := t.stop }]
    else tries ++ [t]
  | none => [t]

def tryOf (placed : List Placed) (p : Placed) : Except Fault (List TryRange) := do
  if p.handlers.isEmpty || p.instructions.isEmpty then
    return []
  let handlers ← p.handlers.mapM fun h => do
    return { h with target := ← startOf placed .missingHandler h.target }
  return [{ start := p.start, stop := p.stop, handlers }]

def lower (code : RegisterCode) (firstWide : Option String) : Except Fault Code := do
  let placed := placeFrom firstWide 0 code.blocks
  let instructions ← (placed.flatMap Placed.instructions).mapM
    (Instruction.mapTargetsM (startOf placed .missingBlock))
  let tries ← placed.mapM (tryOf placed)
  return {
    registers := code.registers
    ins := code.ins
    instructions
    tries := tries.flatten.foldl addTry [] }

end BytecodeOpt.RegisterCode
