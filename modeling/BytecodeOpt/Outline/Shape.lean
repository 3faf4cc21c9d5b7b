import BytecodeOpt.Code

/-!
# Shapes of sequences

A sequence of operations without the numbers of its values: operands are inputs, numbered by first
use, or results of the sequence itself, numbered in order, both in 16 bits.  Sequences of one shape
can share a method.
-/

namespace BytecodeOpt.Outline

inductive ShapeOperand where
  | input (index : Reg)
  | temp (index : Reg)
  deriving DecidableEq, Hashable, Repr, Inhabited

def ShapeOperand.text : ShapeOperand → String
  | .input index => s!"in{index}"
  | .temp index => s!"t{index}"

instance : ToString ShapeOperand := ⟨ShapeOperand.text⟩

inductive ShapeOp where
  | const (value : Constant)
  | binary (op : BinaryOp) (type : NumericType) (left right : ShapeOperand)
  | unary (op : UnaryOp) (source : ShapeOperand)
  | invoke (kind : InvokeKind) (method : MethodId) (args : List ShapeOperand) (hasResult : Bool)
  deriving DecidableEq, Hashable, Repr, Inhabited

def ShapeOp.hasResult : ShapeOp → Bool
  | .invoke _ _ _ hasResult => hasResult
  | _ => true

structure Shape where
  ops : List ShapeOp
  inputTypes : List TypeName
  returns : Option (ShapeOperand × TypeName)
  deriving DecidableEq, Hashable, Repr, Inhabited

namespace Shape

def size (s : Shape) : Nat := s.ops.length

def proto (s : Shape) : Proto where
  returnType := (s.returns.map Prod.snd).getD .void
  parameters := s.inputTypes

def text (s : Shape) : String := s!"{s.proto}{s.size}"

instance : ToString Shape := ⟨text⟩

/-! ## As code -/

def register (s : Shape) : ShapeOperand → Reg
  | .input index => index
  | .temp index => Reg.ofNat (Reg.ofNat s.inputTypes.length + index)

def instructions (s : Shape) (dest : Reg) : ShapeOp → List Instruction
  | .const value => [.const dest value]
  | .binary op type left right => [.binary op type dest (s.register left) (s.register right)]
  | .unary op source => [.unary op dest (s.register source)]
  | .invoke kind method args hasResult =>
    .invoke kind method (args.map s.register) :: if hasResult then [.moveResult dest] else []

def instructionsFrom (s : Shape) : Reg → List ShapeOp → List Instruction
  | _, [] => []
  | dest, op :: rest =>
    s.instructions dest op ++ s.instructionsFrom (if op.hasResult then Reg.ofNat (dest + 1)
      else dest) rest

def code (s : Shape) : Code :=
  let ins := Reg.ofNat s.inputTypes.length
  { registers := Reg.ofNat (ins + max (Reg.ofNat (s.ops.countP ShapeOp.hasResult)) 1)
    ins
    instructions := s.instructionsFrom ins s.ops ++ [.ret (s.returns.map fun r => s.register r.1)]
    tries := [] }

end Shape

end BytecodeOpt.Outline
