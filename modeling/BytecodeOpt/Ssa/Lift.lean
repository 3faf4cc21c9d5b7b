import BytecodeOpt.Method
import BytecodeOpt.Ssa.Edit
import BytecodeOpt.Ssa.Lift.Layout

/-!
# Lifting register code to SSA form

Blocks are filled in reverse postorder.  A register is looked up where it is read: in the block
itself, then over the edges into it, with a phi where several meet.  A block is sealed once all its
predecessors are filled; the phis a lookup left open before that are closed then.  At the end phis
that always pick the same value are dropped.

An exception leaves a block before the throwing instruction takes effect, so a lookup over such an
edge reads the registers as they were just before it.
-/

namespace BytecodeOpt.Ssa

namespace Lift

abbrev Registers := List (Reg × Operand)

structure BlockState where
  written : Registers := []
  atEntry : Registers := []
  beforeThrow : Option Registers := none
  isFilled : Bool := false
  isSealed : Bool := false
  openPhis : Registers := []
  deriving Repr, Inhabited

structure State where
  body : Body
  blocks : Array BlockState
  deriving Repr, Inhabited

structure Source where
  code : Code
  layout : Layout

abbrev LiftM := StateT State (Except LiftFault)

def blockState (s : State) (b : BlockId) : BlockState := s.blocks.getD b {}

def modifyState (b : BlockId) (f : BlockState → BlockState) : LiftM Unit :=
  modify fun s => { s with blocks := s.blocks.modify b f }

def modifyBody (f : Body → Body) : LiftM Unit := modify fun s => { s with body := f s.body }

def emit (b : BlockId) (op : Op) : LiftM Unit :=
  modifyBody (·.modifyBlock b fun block => { block with ops := block.ops ++ [op] })

def newValue (type : ValueType) : LiftM Operand :=
  modifyGet fun s => (s.body.valueCount, { s with body := s.body.addValue type })

/-- A phi without operands yet; until they are known it counts as a reference. -/
def newPhi (b : BlockId) : LiftM Operand := do
  let dest ← newValue .reference
  modifyBody (·.modifyBlock b fun block =>
    { block with phis := block.phis ++ [{ dest, operands := [] }] })
  return dest

def checkRegister (src : Source) (reg : Reg) : LiftM Unit :=
  if reg < src.code.registers then pure () else throw (.registerOutside reg)

def write (src : Source) (b : BlockId) (reg : Reg) (value : Operand) : LiftM Unit := do
  checkRegister src reg
  modifyState b fun s => { s with written := (reg, value) :: s.written }

def cacheAtEntry (b : BlockId) (reg : Reg) (value : Operand) : LiftM Unit :=
  modifyState b fun s => { s with atEntry := (reg, value) :: s.atEntry }

def closePhi (b : BlockId) (phi : Operand) (operands : List Operand) : LiftM Unit :=
  modifyBody fun body =>
    let typed := match operands.find? (· != phi) with
      | some other => body.setValueType phi (body.valueType other)
      | none => body
    typed.modifyBlock b fun block =>
      { block with phis := block.phis.map fun p => if p.dest = phi then { p with operands } else p }

def writtenTowards (src : Source) (s : State) (b target : BlockId) : Registers :=
  let block := blockState s b
  if src.layout.isExceptional b target then block.beforeThrow.getD block.written
  else block.written

def readAtEntry (src : Source) (reg : Reg) : Nat → BlockId → LiftM Operand
  | 0, _ => throw (.undefinedRegister reg)
  | depth + 1, b => do
    let s ← get
    let readOver := fun (p : BlockId) => do
      match (writtenTowards src (← get) p b).lookup reg with
      | some value => return value
      | none => readAtEntry src reg depth p
    match (blockState s b).atEntry.lookup reg with
    | some value => return value
    | none =>
      if (blockState s b).isSealed then
        match src.layout.preds b with
        | [] => throw (.undefinedRegister reg)
        | [p] =>
          let value ← readOver p
          cacheAtEntry b reg value
          return value
        | preds =>
          let phi ← newPhi b
          cacheAtEntry b reg phi
          closePhi b phi (← preds.mapM readOver)
          return phi
      else
        let phi ← newPhi b
        modifyState b fun s => { s with openPhis := s.openPhis ++ [(reg, phi)] }
        cacheAtEntry b reg phi
        return phi

/-- A block where edges meet is passed once, since its phi is known from then on.  The blocks behind
it with one predecessor are passed a second time when the search comes around a loop, and then it
ends at the phi. -/
def depthBound (src : Source) : Nat := 2 * src.layout.blocks.size + 1

def read (src : Source) (b : BlockId) (reg : Reg) : LiftM Operand := do
  checkRegister src reg
  match (blockState (← get) b).written.lookup reg with
  | some value => return value
  | none => readAtEntry src reg (depthBound src) b

def readOverEdge (src : Source) (reg : Reg) (p b : BlockId) : LiftM Operand := do
  match (writtenTowards src (← get) p b).lookup reg with
  | some value => return value
  | none => readAtEntry src reg (depthBound src) p

def trySeal (src : Source) (b : BlockId) : LiftM Unit := do
  let s ← get
  let block := blockState s b
  let preds := src.layout.preds b
  if !block.isSealed && preds.all fun p => (blockState s p).isFilled then
    modifyState b fun s => { s with isSealed := true, openPhis := [] }
    for (reg, phi) in block.openPhis do
      closePhi b phi (← preds.mapM fun p => readOverEdge src reg p b)

def define (src : Source) (b : BlockId) (reg : Reg) (type : ValueType) : LiftM Operand := do
  let value ← newValue type
  write src b reg value
  return value

def pendingResult (src : Source) (b : BlockId) (index : Nat) (type : Option ValueType) :
    Option Instruction → LiftM (Option Operand)
  | some (.moveResult dest) =>
    match type with
    | some type => some <$> define src b dest type
    | none => throw (.resultOfVoidCall index)
  | _ => return none

/-- Control enters the block by exceptions only, and nothing has been emitted into it yet. -/
def isHandlerEntry (src : Source) (s : State) (b : BlockId) : Bool :=
  let preds := src.layout.preds b
  (s.body.block b).ops.isEmpty && !preds.isEmpty && preds.all (src.layout.isExceptional · b)

def unaryType (body : Body) (op : UnaryOp) (source : Operand) : ValueType :=
  match op with
  | .intToLong => .long
  | .longToInt => .int
  | .neg | .not => body.valueType source

/-- The operation for an instruction, none if it only moves values between registers.  `next` is the
instruction that follows in the block. -/
def operation (src : Source) (b : BlockId) (index : Nat) (next : Option Instruction) :
    Instruction → LiftM (Option Op)
  | .nop => return none
  | .line number => return some (.line number)
  | .const dest value => return some (.const (← define src b dest value.valueType) value)
  | .constString dest value _ =>
    return some (.const (← define src b dest .reference) (.string value))
  | .move dest source => do
    write src b dest (← read src b source)
    return none
  | .moveResult _ => throw (.strayResult index)
  | .moveException dest => do
    if !isHandlerEntry src (← get) b then
      throw (.strayException index)
    return some (.moveException (← define src b dest .reference))
  | .binary op type dest left right => do
    let left ← read src b left
    let right ← read src b right
    let result := if op = .cmp then .int else type.valueType
    return some (.binary op type (← define src b dest result) left right)
  | .unary op dest source => do
    let source ← read src b source
    let type := unaryType (← get).body op source
    return some (.unary op (← define src b dest type) source)
  | .goto target => return some (.goto (← src.layout.blockAt target))
  | .branch cond left right target => do
    let left ← read src b left
    let right ← right.mapM (read src b)
    return some (.branch cond left right (← src.layout.blockAt target)
      (← src.layout.blockAt (index + 1)))
  | .switch value keys targets => do
    let value ← read src b value
    let blocks ← targets.mapM fun t => liftM (src.layout.blockAt t)
    return some (.switch value keys blocks (← src.layout.blockAt (index + 1)))
  | .ret value => return some (.ret (← value.mapM (read src b)))
  | .throw value => return some (.throw (← read src b value))
  | .invoke kind method args => do
    let args ← args.mapM (read src b)
    let returned := method.proto.returnType
    let type := if returned.isVoid then none else some returned.valueType
    return some (.invoke kind method args (← pendingResult src b index type next))
  | .invokeCustom site args => do
    let args ← args.mapM (read src b)
    return some (.invokeCustom site args (← pendingResult src b index (some .reference) next))
  | .filledNewArray type args => do
    let args ← args.mapM (read src b)
    let dest ← pendingResult src b index (some .reference) next
    return some (.filledNewArray dest type args)
  | .newInstance dest type => return some (.newInstance (← define src b dest .reference) type)
  | .newArray dest size type => do
    let size ← read src b size
    return some (.newArray (← define src b dest .reference) size type)
  | .arrayGet dest array index type => do
    let array ← read src b array
    let index ← read src b index
    return some (.arrayGet (← define src b dest type) array index type)
  | .arrayPut value array index type => do
    let value ← read src b value
    let array ← read src b array
    return some (.arrayPut value array (← read src b index) type)
  | .arrayLength dest array => do
    let array ← read src b array
    return some (.arrayLength (← define src b dest .int) array)
  | .instanceGet dest object field => do
    let object ← read src b object
    return some (.instanceGet (← define src b dest field.type.valueType) object field)
  | .instancePut value object field => do
    let value ← read src b value
    return some (.instancePut value (← read src b object) field)
  | .staticGet dest field =>
    return some (.staticGet (← define src b dest field.type.valueType) field)
  | .staticPut value field => return some (.staticPut (← read src b value) field)
  | .checkCast value type => do
    let old ← read src b value
    return some (.checkCast (← define src b value .reference) old type)
  | .instanceOf dest value type => do
    let value ← read src b value
    return some (.instanceOf (← define src b dest .int) value type)

def noteThrow (src : Source) (b : BlockId) (index : Nat) : LiftM Unit :=
  if (src.layout.block b).throwing = some index then
    modifyState b fun s => { s with beforeThrow := some s.written }
  else pure ()

def takesResult (instruction : Instruction) (next : Option Instruction) : Bool :=
  instruction.hasPendingResult && next.any Instruction.isMoveResult

/-- Fills a block from a stretch of instructions; `skip` is set when the first of them went into the
operation before. -/
def fillFrom (src : Source) (b : BlockId) : List Instruction → Nat → Bool → LiftM Unit
  | [], _, _ => return ()
  | _ :: rest, index, true => fillFrom src b rest (index + 1) false
  | instruction :: rest, index, false => do
    noteThrow src b index
    for op in ← operation src b index rest.head? instruction do
      emit b op
    fillFrom src b rest (index + 1) (takesResult instruction rest.head?)

def fillEntry (src : Source) (argumentTypes : List ValueType) : LiftM Unit := do
  for (type, index) in argumentTypes.zipIdx do
    let dest ← newValue type
    emit 0 (.argument dest index)
    write src 0 index dest
  emit 0 (.goto (← src.layout.blockAt 0))

def fill (src : Source) (argumentTypes : List ValueType) (b : BlockId) : LiftM Unit := do
  if b = 0 then
    fillEntry src argumentTypes
  else
    let range := src.layout.block b
    let instructions := (src.code.instructions.drop range.start).take (range.stop - range.start)
    fillFrom src b instructions range.start false
    if !(instructions.getLast?.any Instruction.isBranch) then
      emit b (.goto (← src.layout.blockAt range.stop))

def fillAll (src : Source) (argumentTypes : List ValueType) : LiftM Unit := do
  for b in src.layout.graph.reversePostorder 0 do
    trySeal src b
    fill src argumentTypes b
    modifyState b fun s => { s with isFilled := true }
    for next in src.layout.successors b do
      trySeal src next
  match (← get).blocks.findIdx? fun s => !s.isSealed with
  | some b => throw (.neverSealed b)
  | none => return ()

def frame (method : MethodId) (layout : Layout) : Body where
  method
  blocks := (layout.blockIds.map fun b =>
    { preds := layout.preds b, handlers := (layout.block b).handlers }).toArray

/-! ## Phis that pick one value -/

def choices (r : Renaming) (phi : Phi) : List Operand :=
  ((phi.operands.map r.resolve).filter (· != phi.dest)).eraseDups

def dropTrivial (r : Renaming) (phi : Phi) : Except LiftFault Renaming :=
  if r.isRenamed phi.dest then .ok r
  else
    match choices r phi with
    | [] => .error (.emptyPhi phi.dest)
    | [value] => .ok (r.insert phi.dest value)
    | _ => .ok r

/-- Repeats until nothing more is renamed; each round but the last renames a phi. -/
def trivialPhis (phis : List Phi) : Nat → Renaming → Except LiftFault Renaming
  | 0, r => .ok r
  | rounds + 1, r => do
    let next ← phis.foldlM dropTrivial r
    if next.size = r.size then return next else trivialPhis phis rounds next

def removeTrivialPhis (body : Body) : Except LiftFault Body := do
  let phis := body.blocks.toList.flatMap Block.phis
  let r ← trivialPhis phis (phis.length + 1) {}
  let kept := body.mapBlocks fun b => { b with phis := b.phis.filter fun p => !r.isRenamed p.dest }
  return kept.rename r

end Lift

def argumentTypes (m : Method) : List ValueType :=
  (if m.flags.isStatic then [] else [.reference])
    ++ m.id.proto.parameters.map TypeName.valueType

def liftCode (m : Method) (code : Code) : Except LiftFault Body := do
  if code.ins ≠ m.argumentCount || code.registers < code.ins then
    throw (.argumentRegisters code.ins m.argumentCount code.registers)
  if code.instructions.isEmpty then
    throw .emptyCode
  let layout ← Layout.ofCode code
  let start : Lift.State :=
    { body := Lift.frame m.id layout, blocks := Array.replicate layout.blocks.size {} }
  let (_, done) ← (Lift.fillAll ⟨code, layout⟩ (argumentTypes m)).run start
  Lift.removeTrivialPhis done.body

def lift? (m : Method) : Except LiftFault (Option Body) :=
  if m.isAbstractOrNative then .ok none
  else
    match m.code with
    | none => .ok none
    | some code => some <$> liftCode m code

end BytecodeOpt.Ssa
