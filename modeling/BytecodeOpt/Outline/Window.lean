import BytecodeOpt.Options
import BytecodeOpt.Outline.Shape
import BytecodeOpt.Program.Hierarchy
import BytecodeOpt.Ssa.Body

/-!
# Windows

The stretches of a body that could become a method of their own: of a permitted length, made of
operations that can run anywhere, with at most one result that is read outside.
-/

namespace BytecodeOpt.Outline

open Ssa

structure Window where
  block : BlockId
  start : Nat
  stop : Nat
  shape : Shape
  inputs : List Operand
  escaping : Option Operand
  deriving DecidableEq, Repr, Inhabited

def Window.size (w : Window) : Nat := w.stop - w.start

def isAccessible (program : Program) (o : OutlineOptions) (method : MethodId) : Bool :=
  !o.className.toList.isPrefixOf method.holder.name.toList
    && match program.class? method.holder with
      | none => true
      | some c => c.flags.isPublic && (program.lookup? method).any (·.flags.isPublic)

def isOutlinable (program : Program) (o : OutlineOptions) : Op → Bool
  | .const _ value => !value.isType
  | .binary .. | .unary .. => true
  | .invoke kind method _ _ =>
    (kind = .static || kind = .virtual) && isAccessible program o method
  | _ => false

def argumentType (kind : InvokeKind) (method : MethodId) (position : Nat) : TypeName :=
  let types := if kind.hasReceiver then method.holder :: method.proto.parameters
    else method.proto.parameters
  types.getD position .object

def inputType (body : Body) (op : Op) (position : Nat) (v : Operand) : TypeName :=
  match body.valueType v, op with
  | .reference, .invoke kind method _ _ => argumentType kind method position
  | .reference, _ => .object
  | type, _ => type.typeName

def resultType (body : Body) (op : Op) (v : Operand) : TypeName :=
  match op with
  | .invoke _ method _ _ => method.proto.returnType
  | .const _ (.string _) => .string
  | _ => (body.valueType v).typeName

structure Temp where
  value : Operand
  index : Reg
  type : TypeName
  deriving DecidableEq, Repr, Inhabited

structure Draft where
  ops : List ShapeOp := []
  temps : List Temp := []
  inputs : List (Operand × TypeName) := []
  reads : List Operand := []
  deriving Repr, Inhabited

namespace Draft

def inputIndex? (d : Draft) (v : Operand) : Option Nat :=
  (d.inputs.findIdx? (·.1 = v)).map fun i => d.inputs.length - 1 - i

def read (body : Body) (op : Op) (d : Draft) (position : Nat) (v : Operand) :
    ShapeOperand × Draft :=
  let d := { d with reads := v :: d.reads }
  match d.temps.find? (·.value = v) with
  | some temp => (.temp temp.index, d)
  | none =>
    match d.inputIndex? v with
    | some index => (.input (Reg.ofNat index), d)
    | none =>
      (.input (Reg.ofNat d.inputs.length),
        { d with inputs := (v, inputType body op position v) :: d.inputs })

def readAll (body : Body) (op : Op) : Draft → Nat → List Operand → List ShapeOperand × Draft
  | d, _, [] => ([], d)
  | d, position, v :: rest =>
    let (operand, d) := d.read body op position v
    let (operands, d) := readAll body op d (position + 1) rest
    (operand :: operands, d)

def shapeOp? : Op → List ShapeOperand → Option ShapeOp
  | .const _ value, _ => some (.const value)
  | .binary op type _ _ _, [left, right] => some (.binary op type left right)
  | .unary op _ _, [source] => some (.unary op source)
  | .invoke kind method _ dest, args => some (.invoke kind method args dest.isSome)
  | _, _ => none

def extend? (body : Body) (d : Draft) (op : Op) : Option Draft :=
  let (operands, d) := readAll body op d 0 op.uses
  (shapeOp? op operands).map fun shapeOp =>
    let temps := match op.dest? with
      | some v =>
        { value := v, index := Reg.ofNat (d.ops.countP ShapeOp.hasResult),
          type := resultType body op v }
          :: d.temps.filter (·.value ≠ v)
      | none => d.temps
    { d with ops := shapeOp :: d.ops, temps }

def escaping (useCounts : Array Nat) (d : Draft) : List Temp :=
  d.temps.filter fun t => d.reads.count t.value < useCounts.getD t.value 0

def isConst : ShapeOp → Bool
  | .const _ => true
  | _ => false

/-- The window of a sequence, if it is worth a method and has one result at most. -/
def window? (useCounts : Array Nat) (b : BlockId) (start : Nat) (d : Draft) : Option Window :=
  let make := fun (returned : Option Temp) =>
    { block := b
      start
      stop := start + d.ops.length
      shape :=
        { ops := d.ops.reverse
          inputTypes := (d.inputs.map Prod.snd).reverse
          returns := returned.map fun t => (.temp t.index, t.type) }
      inputs := (d.inputs.map Prod.fst).reverse
      escaping := returned.map Temp.value : Window }
  if d.ops.all isConst then none
  else
    match d.escaping useCounts with
    | [] => some (make none)
    | [t] => some (make (some t))
    | _ => none

end Draft

def windowsFrom (body : Body) (useCounts : Array Nat) (o : OutlineOptions) (b : BlockId)
    (start : Nat) : List Op → Draft → List Window
  | [], _ => []
  | op :: rest, d =>
    match d.extend? body op with
    | none => []
    | some d =>
      if o.maxSize < d.ops.length then []
      else
        (if o.minSize ≤ d.ops.length then (d.window? useCounts b start).toList else [])
          ++ windowsFrom body useCounts o b start rest d

/-- Where a window has to end at the latest.  Positions are 64-bit numbers, so the sum wraps
around. -/
def lastStop (o : OutlineOptions) (start : Nat) : Nat :=
  (start + o.maxSize) % 18446744073709551616

/-- The windows of a block from an operation on; each ends before the first operation that is not
marked as fit to be moved. -/
def blockWindows (body : Body) (useCounts : Array Nat) (o : OutlineOptions) (b : BlockId) :
    List (Op × Bool) → Nat → List Window
  | [], _ => []
  | op :: rest, start =>
    let run := ((op :: rest).take (lastStop o start - start)).takeWhile Prod.snd
    windowsFrom body useCounts o b start (run.map Prod.fst) {}
      ++ blockWindows body useCounts o b rest (start + 1)

/-- All windows in block order, then by start, then by length. -/
def windows (program : Program) (o : OutlineOptions) (body : Body) : List Window :=
  let useCounts := body.useCounts
  body.blockIds.flatMap fun b =>
    let block := body.block b
    if block.handlers.isEmpty then
      let marked := block.ops.map fun op => (op, isOutlinable program o op)
      blockWindows body useCounts o b marked 0
    else []

end BytecodeOpt.Outline
