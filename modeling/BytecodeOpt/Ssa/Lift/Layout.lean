import BytecodeOpt.Graph.DepthFirst
import BytecodeOpt.Ssa.Lift.Fault

/-!
# Cutting code into blocks

The block graph of register code: where blocks start, how control passes between them, and which of
them can be reached.  Block 0 is an entry of its own that holds the arguments; the others follow in
code order.
-/

namespace BytecodeOpt.Ssa

/-- Instructions that are entered only at the first and left only at the last.  Successors and
handler targets are instruction indices. -/
structure Segment where
  start : Nat
  stop : Nat
  next : List Nat
  handlers : List Handler
  /-- The first instruction that can throw, if that has handlers. -/
  throwing : Option Nat
  deriving DecidableEq, Repr, Inhabited

structure LayoutBlock where
  start : Nat := 0
  stop : Nat := 0
  /-- Normal successors, then handler targets, each once. -/
  successors : List BlockId := []
  handlers : List Handler := []
  throwing : Option Nat := none
  deriving DecidableEq, Repr, Inhabited

structure Layout where
  blocks : Array LayoutBlock
  deriving DecidableEq, Repr, Inhabited

namespace Layout

def checkTarget (code : Code) (target : Nat) : Except LiftFault Nat :=
  if target < code.instructions.length then .ok target else .error (.targetOutside target)

/-- Where control can be after an instruction that throws inside a try range: behind it and the
`moveResult` that belongs to it. -/
def afterThrowing (code : Code) (instruction : Instruction) (index : Nat) : Nat :=
  let hasResult := instruction.hasPendingResult
    && (code.instructions[index + 1]?.any Instruction.isMoveResult)
  if hasResult then index + 2 else index + 1

def instructionLeaders (code : Code) (instruction : Instruction) (index : Nat) :
    Except LiftFault (List Nat) := do
  let targets ← instruction.targets.mapM (checkTarget code)
  let afterBranch := if instruction.isBranch then [index + 1] else []
  let afterThrow :=
    if instruction.canThrow && !(code.handlersAt index).isEmpty then
      [afterThrowing code instruction index]
    else []
  return targets ++ (afterBranch ++ afterThrow).filter (· < code.instructions.length)

def tryLeaders (code : Code) (range : TryRange) : Except LiftFault (List Nat) := do
  let length := code.instructions.length
  if range.stop ≤ range.start || length < range.stop then
    throw (.invalidTry range.start range.stop)
  let targets ← range.handlers.mapM fun h => checkTarget code h.target
  return range.start :: (if range.stop < length then [range.stop] else []) ++ targets

def leaders (code : Code) : Except LiftFault (List Nat) := do
  let ofInstructions ← code.instructions.zipIdx.mapM fun (i, index) =>
    instructionLeaders code i index
  let ofTries ← code.tries.mapM (tryLeaders code)
  let marked := 0 :: ofInstructions.flatten ++ ofTries.flatten
  return (List.range code.instructions.length).filter marked.contains

def segmentHandlers (code : Code) (next : List Nat) :
    Option Nat → Except LiftFault (List Handler)
  | none => .ok []
  | some index => do
    let handlers := code.handlersAt index
    match handlers.find? fun h => next.contains h.target with
    | some h => throw (.mixedSuccessor h.target)
    | none => return handlers

def segment (code : Code) (start stop : Nat) : Except LiftFault Segment := do
  let last := code.instructions.getD (stop - 1) .nop
  if !last.endsFlow && code.instructions.length ≤ stop then
    throw .fallsOffEnd
  let next := last.targets ++ if last.endsFlow then [] else [stop]
  let throwing := ((List.range' start (stop - start)).find? fun i =>
    (code.instructions.getD i .nop).canThrow)
  let handlers ← segmentHandlers code next throwing
  return { start, stop, next, handlers, throwing := if handlers.isEmpty then none else throwing }

def segments (code : Code) : Except LiftFault (List Segment) := do
  let starts ← leaders code
  let stops := starts.drop 1 ++ [code.instructions.length]
  (starts.zip stops).mapM fun (start, stop) => segment code start stop

def segmentGraph (segments : List Segment) : Digraph where
  adjacency := (segments.map fun s =>
    (s.next ++ s.handlers.map Handler.target).filterMap fun target =>
      segments.findIdx? (·.start == target)).toArray

def reachableSegments (segments : List Segment) : List Segment :=
  let reached := (segmentGraph segments).reached 0
  (segments.zipIdx.filter fun (_, i) => reached.getD i false).map Prod.fst

def blockIn? (kept : List Segment) (index : Nat) : Option BlockId :=
  (kept.findIdx? (·.start == index)).map (· + 1)

def layoutBlock (kept : List Segment) (s : Segment) : LayoutBlock :=
  let block := fun index => (blockIn? kept index).getD 0
  let handlers := s.handlers.map fun h => { h with target := block h.target }
  { start := s.start
    stop := s.stop
    successors := (s.next.map block ++ handlers.map Handler.target).eraseDups
    handlers
    throwing := s.throwing }

def ofCode (code : Code) : Except LiftFault Layout := do
  let kept := reachableSegments (← segments code)
  let entry : LayoutBlock := { successors := [(blockIn? kept 0).getD 0] }
  return { blocks := (entry :: kept.map (layoutBlock kept)).toArray }

def block (layout : Layout) (b : BlockId) : LayoutBlock := layout.blocks.getD b {}

def blockIds (layout : Layout) : List BlockId := List.range layout.blocks.size

def successors (layout : Layout) (b : BlockId) : List BlockId := (layout.block b).successors

def preds (layout : Layout) (b : BlockId) : List BlockId :=
  layout.blockIds.filter fun p => (layout.successors p).contains b

def isExceptional (layout : Layout) (source target : BlockId) : Bool :=
  (layout.block source).handlers.any (·.target == target)

def blockAt (layout : Layout) (index : Nat) : Except LiftFault BlockId :=
  match layout.blockIds.find? fun b => b != 0 && (layout.block b).start == index with
  | some b => .ok b
  | none => .error (.noBlockAt index)

def graph (layout : Layout) : Digraph := ⟨layout.blocks.map LayoutBlock.successors⟩

end Layout

end BytecodeOpt.Ssa
