import BytecodeOpt.Op

/-!
# Blocks

A block of SSA form: phis that pick a value by the edge taken, then operations, the last of which
leaves the block.  An exception raised in the block continues at its handlers.
-/

namespace BytecodeOpt.Ssa

structure Phi where
  dest : Operand
  operands : List Operand
  deriving DecidableEq, Repr, Inhabited

structure Block where
  phis : List Phi := []
  ops : List Op := []
  preds : List BlockId := []
  handlers : List Handler := []
  deriving DecidableEq, Repr, Inhabited

namespace Block

def terminator? (b : Block) : Option Op := b.ops.getLast?.filter Op.isTerminator

def mapTerminator (b : Block) (f : Op → Op) : Block :=
  match b.terminator? with
  | some op => { b with ops := b.ops.dropLast ++ [f op] }
  | none => b

def normalSuccessors (b : Block) : List BlockId := (b.terminator?.map Op.successors).getD []

def handlerTargets (b : Block) : List BlockId := b.handlers.map Handler.target

def successors (b : Block) : List BlockId := (b.normalSuccessors ++ b.handlerTargets).eraseDups

def isHandlerTarget (b : Block) (target : BlockId) : Bool := b.handlerTargets.contains target

def isExceptionalSuccessor (b : Block) (target : BlockId) : Bool :=
  b.isHandlerTarget target && !b.normalSuccessors.contains target

/-- The last operation that can throw, if there are handlers to go to. -/
def throwingIndex? (b : Block) : Option Nat :=
  if b.handlers.isEmpty then none
  else ((b.ops.zipIdx.filter (·.1.canThrow)).getLast?).map Prod.snd

def predIndex? (b : Block) (pred : BlockId) : Option Nat := b.preds.findIdx? (· == pred)

def bodyLength (b : Block) : Nat :=
  if b.terminator?.isSome then b.ops.length - 1 else b.ops.length

def removePred (b : Block) (pred : BlockId) : Block :=
  match b.predIndex? pred with
  | none => b
  | some index =>
    { b with
      preds := b.preds.eraseIdx index
      phis := b.phis.map fun phi => { phi with operands := phi.operands.eraseIdx index } }

def uses (b : Block) : List Operand := b.phis.flatMap Phi.operands ++ b.ops.flatMap Op.uses

def mapUses (b : Block) (f : Operand → Operand) : Block :=
  { b with
    phis := b.phis.map fun phi => { phi with operands := phi.operands.map f }
    ops := b.ops.map (Op.mapUses f) }

/-- Where new operations can start: after a caught exception and after the arguments. -/
def insertionPoint (b : Block) : Nat :=
  (b.ops.takeWhile fun op => op.isMoveException || op.isArgument).length

/-! ## Text -/

def handlerText (h : Handler) : String :=
  match h.guard with
  | some guard => s!" catch({guard} -> B{h.target})"
  | none => s!" catch(* -> B{h.target})"

def predsText (b : Block) : String :=
  if b.preds.isEmpty then ""
  else " preds(" ++ ", ".intercalate (b.preds.map Op.blockText) ++ ")"

def phiText (phi : Phi) : String := s!"  v{phi.dest} <- phi({Op.valuesText phi.operands})\n"

def text (b : Block) (id : BlockId) : String :=
  s!"B{id}:" ++ b.predsText ++ "".intercalate (b.handlers.map handlerText) ++ "\n"
    ++ "".intercalate (b.phis.map phiText)
    ++ "".intercalate (b.ops.map fun op => s!"  {op}\n")

end Block

end BytecodeOpt.Ssa
