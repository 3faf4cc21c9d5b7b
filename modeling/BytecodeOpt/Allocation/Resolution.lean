import BytecodeOpt.Allocation.Assignment
import BytecodeOpt.RegisterCode

/-!
# Resolution

Turns a body with assigned registers into register code.  Moves are put where the register of a
value changes: in the middle of a block where an interval was split, and on the edges, where also
the phis get their values.
-/

namespace BytecodeOpt.Allocation

open Ssa

structure Scratch where
  base : Reg
  used : Nat := 0
  deriving DecidableEq, Repr, Inhabited

def Scratch.claim (s : Scratch) (slot : Nat) : Reg × Scratch :=
  (Reg.ofNat (s.base + slot), { s with used := max s.used (slot + 1) })

def moveOp (m : Move) : Op := .move m.dest m.source

/-- Parallel moves in order.  A cycle goes by way of a free register, else of a scratch register. -/
def emitMoves (moves : List Move) (free : Option Reg) (scratch : Scratch) : List Op × Scratch :=
  let (register, scratch) :=
    if Move.needsScratch moves then
      match free with
      | some register => (register, scratch)
      | none => scratch.claim 0
    else (Move.outside, scratch)
  ((Move.order moves register).map moveOp, scratch)

/-! ## Moves inside a block -/

/-- The move between two pieces of a value that follow each other, if control runs from one into the
other. -/
def pieceMove? (n : Numbering) (first second : Interval) : Option (Nat × Move) := do
  let position := second.start
  guard ((n.opAt? position).isSome && first.covers (position - 1))
  return (position, ⟨← second.register, ← first.register⟩)

def splitMoves (a : Assignment) : List (Nat × Move) :=
  a.byValue.toList.flatMap fun pieces =>
    (pieces.zip (pieces.drop 1)).filterMap fun (first, second) =>
      pieceMove? a.numbering first second

def movesAt (moves : List (Nat × Move)) (position : Nat) : List Move :=
  (moves.filter (·.1 = position)).map Prod.snd

/-! ## Moves on edges -/

/-- Moves at the start or the end of a block, with the positions whose values they must not
touch. -/
structure EdgeMoves where
  block : BlockId
  atStart : Bool
  moves : List Move
  guards : List Nat
  deriving DecidableEq, Repr, Inhabited

def exitPosition (body : Body) (n : Numbering) (source target : BlockId) : Except Fault Nat :=
  let block := body.block source
  if block.isExceptionalSuccessor target then
    match block.throwingIndex? with
    | some index => .ok (n.position source index)
    | none => .error (.cannotThrow source)
  else .ok (n.blockStop source - 1)

def transfers (body : Body) (a : Assignment) (source target : BlockId) (leave enter : Nat) :
    Except Fault (List Move) := do
  let block := body.block target
  let phis ← match block.predIndex? source with
    | none => pure []
    | some slot => block.phis.mapM fun phi => do
      return Move.mk (← a.location phi.dest enter) (← a.location (phi.operands.getD slot 0) leave)
  let live ← (a.liveness.liveInto target).mapM fun v => do
    return Move.mk (← a.location v enter) (← a.location v leave)
  return (phis ++ live).filter fun m => m.dest ≠ m.source

/-- The moves of an edge, at the start of the successor if no other edge leads there, else at the
end of the predecessor. -/
def edgeMoves (body : Body) (a : Assignment) (source target : BlockId) :
    Except Fault (List EdgeMoves) := do
  let block := body.block source
  let leave ← exitPosition body a.numbering source target
  let enter := a.numbering.blockStart target
  let moves ← transfers body a source target leave enter
  if moves.isEmpty then
    return []
  else if (body.block target).preds.length = 1 then
    return [{ block := target, atStart := true, moves, guards := [enter, enter + 1] }]
  else if !block.isExceptionalSuccessor target && block.successors.length = 1 then
    return [{ block := source, atStart := false, moves, guards := [leave - 1, leave, enter] }]
  else
    throw (.noPlaceForMoves source target)

def allEdgeMoves (body : Body) (a : Assignment) : Except Fault (List EdgeMoves) := do
  let found ← a.numbering.order.mapM fun source =>
    (body.block source).successors.mapM fun target => edgeMoves body a source target
  return found.flatten.flatten

def collect (all : List EdgeMoves) (b : BlockId) (atStart : Bool) : List Move × List Nat :=
  let here := all.filter fun e => e.block = b && e.atStart = atStart
  (here.flatMap EdgeMoves.moves, here.flatMap EdgeMoves.guards)

/-! ## Blocks -/

def allocateOp (a : Assignment) (op : Op) (position : Nat) : Except Fault Op := do
  let registers ← op.uses.mapM fun v => return (v, ← a.location v position)
  let read := op.mapUses fun v => (registers.lookup v).getD v
  match op.dest? with
  | none => return read
  | some dest =>
    let register ← a.location dest (position + 1)
    return read.mapDest fun _ => register

def emitSplits (a : Assignment) (splits : List (Nat × Move)) (position : Nat) (scratch : Scratch) :
    List Op × Scratch :=
  match movesAt splits position with
  | [] => ([], scratch)
  | moves => emitMoves moves (a.freeRegister? [position - 1, position] moves) scratch

def allocateOps (a : Assignment) (splits : List (Nat × Move)) (b : BlockId) :
    List Op → Nat → Scratch → Except Fault (List Op × Scratch)
  | [], _, scratch => return ([], scratch)
  | op :: rest, index, scratch => do
    let position := a.numbering.position b index
    let (moved, scratch) := emitSplits a splits position scratch
    let own ← if op.isArgument then pure [] else List.singleton <$> allocateOp a op position
    let (ops, scratch) ← allocateOps a splits b rest (index + 1) scratch
    return (moved ++ own ++ ops, scratch)

/-- Puts moves at the start of a block, behind the catching of an exception.  If that would
overwrite what a move reads, the exception waits in a scratch register until the moves are done. -/
def addEntryMoves (a : Assignment) (moves : List Move) (guards : List Nat) (ops : List Op)
    (scratch : Scratch) : List Op × Scratch :=
  let free := a.freeRegister? guards moves
  match ops with
  | .moveException dest :: rest =>
    let caught := RegisterCode.register dest
    if moves.any (·.source = caught) then
      let (parked, scratch) := scratch.claim 1
      let (moved, scratch) := emitMoves moves free scratch
      (.moveException parked :: moved ++ .move caught parked :: rest, scratch)
    else
      let (moved, scratch) := emitMoves moves free scratch
      (.moveException dest :: moved ++ rest, scratch)
  | _ =>
    let (moved, scratch) := emitMoves moves free scratch
    (moved ++ ops, scratch)

def addExitMoves (a : Assignment) (moves : List Move) (guards : List Nat) (ops : List Op)
    (scratch : Scratch) : List Op × Scratch :=
  let (moved, scratch) := emitMoves moves (a.freeRegister? guards moves) scratch
  (ops.dropLast ++ moved ++ ops.getLast?.toList, scratch)

def allocateBlock (body : Body) (a : Assignment) (splits : List (Nat × Move))
    (edges : List EdgeMoves) (b : BlockId) (scratch : Scratch) :
    Except Fault (RegisterBlock × Scratch) := do
  let block := body.block b
  let (ops, scratch) ← allocateOps a splits b block.ops 0 scratch
  let (entry, entryGuards) := collect edges b true
  let (ops, scratch) :=
    if entry.isEmpty then (ops, scratch) else addEntryMoves a entry entryGuards ops scratch
  let (exit, exitGuards) := collect edges b false
  let (ops, scratch) :=
    if exit.isEmpty then (ops, scratch) else addExitMoves a exit exitGuards ops scratch
  return ({ id := b, ops, handlers := block.handlers }, scratch)

def allocateBlocks (body : Body) (a : Assignment) (splits : List (Nat × Move))
    (edges : List EdgeMoves) : List BlockId → Scratch → Except Fault (List RegisterBlock × Scratch)
  | [], scratch => return ([], scratch)
  | b :: rest, scratch => do
    let (block, scratch) ← allocateBlock body a splits edges b scratch
    let (blocks, scratch) ← allocateBlocks body a splits edges rest scratch
    return (block :: blocks, scratch)

def resolve (body : Body) (a : Assignment) (ins maxRegisters : Nat) :
    Except Fault RegisterCode := do
  let edges ← allEdgeMoves body a
  let (blocks, scratch) ←
    allocateBlocks body a (splitMoves a) edges a.numbering.order { base := max a.registers ins }
  let registers := Reg.ofNat (scratch.base + scratch.used)
  if maxRegisters < registers then
    throw (.pressure maxRegisters)
  return { method := body.method, blocks, registers, ins }

/-- What allocation leaves: the prepared body, the events, and the code unless it failed. -/
structure Outcome where
  body : Body
  events : List Event
  code : Except Fault RegisterCode

def allocate (body : Body) (ins maxRegisters : Nat) (checks : Bool) : Outcome :=
  match assign body ins maxRegisters with
  | (body, .error fault) => { body, events := [], code := .error fault }
  | (body, .ok a) =>
    { body
      events := a.events
      code := do
        if checks then a.check
        resolve body a ins maxRegisters }

end BytecodeOpt.Allocation
