import BytecodeOpt.Constant
import BytecodeOpt.Member
import BytecodeOpt.Operator

/-!
# Instructions

The instructions of the register machine.  Branches name their targets by instruction index, and the
result of an invocation or of a filled array is picked up by a `moveResult` that follows it.
-/

namespace BytecodeOpt

abbrev Reg := Nat

/-- Registers are numbered in 16 bits; what goes beyond wraps around. -/
def Reg.ofNat (n : Nat) : Reg := n % 65536

structure CallSite where
  interface : TypeName
  methodName : String
  methodProto : Proto
  implementation : MethodId
  implementationKind : InvokeKind
  deriving DecidableEq, Hashable, Ord, Repr, Inhabited

inductive Instruction where
  | nop
  | const (dest : Reg) (value : Constant)
  | constString (dest : Reg) (value : String) (jumbo : Bool)
  | move (dest source : Reg)
  | moveResult (dest : Reg)
  | moveException (dest : Reg)
  | binary (op : BinaryOp) (type : NumericType) (dest left right : Reg)
  | unary (op : UnaryOp) (dest source : Reg)
  | goto (target : Nat)
  /-- Compares with zero when there is no right operand. -/
  | branch (cond : Condition) (left : Reg) (right : Option Reg) (target : Nat)
  | switch (value : Reg) (keys : List Int) (targets : List Nat)
  | ret (value : Option Reg)
  | throw (value : Reg)
  | invoke (kind : InvokeKind) (method : MethodId) (args : List Reg)
  | invokeCustom (site : CallSite) (args : List Reg)
  | newInstance (dest : Reg) (type : TypeName)
  | newArray (dest size : Reg) (type : TypeName)
  | filledNewArray (type : TypeName) (args : List Reg)
  | arrayGet (dest array index : Reg) (type : ValueType)
  | arrayPut (value array index : Reg) (type : ValueType)
  | arrayLength (dest array : Reg)
  | instanceGet (dest object : Reg) (field : FieldId)
  | instancePut (value object : Reg) (field : FieldId)
  | staticGet (dest : Reg) (field : FieldId)
  | staticPut (value : Reg) (field : FieldId)
  | checkCast (value : Reg) (type : TypeName)
  | instanceOf (dest value : Reg) (type : TypeName)
  | line (number : Nat)
  deriving DecidableEq, Repr, Inhabited

namespace Instruction

def endsFlow : Instruction → Bool
  | .goto _ | .ret _ | .throw _ => true
  | _ => false

def isBranch : Instruction → Bool
  | .goto _ | .ret _ | .throw _ | .branch .. | .switch .. => true
  | _ => false

def targets : Instruction → List Nat
  | .goto target => [target]
  | .branch _ _ _ target => [target]
  | .switch _ _ targets => targets
  | _ => []

def canThrow : Instruction → Bool
  | .binary op .. => op.canThrow
  | .const _ value => value.isType
  | .throw _ | .invoke .. | .invokeCustom .. | .newInstance .. | .newArray ..
  | .filledNewArray .. | .arrayGet .. | .arrayPut .. | .arrayLength .. | .instanceGet ..
  | .instancePut .. | .staticGet .. | .staticPut .. | .checkCast .. => true
  | _ => false

def hasPendingResult : Instruction → Bool
  | .invoke .. | .invokeCustom .. | .filledNewArray .. => true
  | _ => false

def isMoveResult : Instruction → Bool
  | .moveResult _ => true
  | _ => false

def isCounted : Instruction → Bool
  | .nop | .line _ => false
  | _ => true

def string? : Instruction → Option String
  | .constString _ value _ => some value
  | .const _ value => value.string?
  | _ => none

/-! ## Text -/

def regText (r : Reg) : String := s!"r{r}"

def regsText (rs : List Reg) : String := "\x7b" ++ ", ".intercalate (rs.map regText) ++ "\x7d"

def text : Instruction → String
  | .nop => "nop"
  | .const dest value => s!"const r{dest}, {value}"
  | .constString dest value jumbo =>
    "const-string" ++ (if jumbo then "/jumbo" else "") ++ s!" r{dest}, {Text.quote value}"
  | .move dest source => s!"move r{dest}, r{source}"
  | .moveResult dest => s!"move-result r{dest}"
  | .moveException dest => s!"move-exception r{dest}"
  | .binary op type dest left right => s!"{op}-{type} r{dest}, r{left}, r{right}"
  | .unary op dest source => s!"{op} r{dest}, r{source}"
  | .goto target => s!"goto @{target}"
  | .branch cond left (some right) target => s!"if-{cond} r{left}, r{right}, @{target}"
  | .branch cond left none target => s!"if-{cond}z r{left}, @{target}"
  | .switch value keys targets =>
    s!"switch r{value}" ++ "".intercalate ((keys.zip targets).map fun (k, t) => s!" {k}:@{t}")
  | .ret (some value) => s!"return r{value}"
  | .ret none => "return-void"
  | .throw value => s!"throw r{value}"
  | .invoke kind method args => s!"invoke-{kind} {regsText args}, {method}"
  | .invokeCustom site args =>
    s!"invoke-custom {regsText args}, {site.interface}::{site.implementation}"
  | .newInstance dest type => s!"new-instance r{dest}, {type}"
  | .newArray dest size type => s!"new-array r{dest}, r{size}, {type}"
  | .filledNewArray type args => s!"filled-new-array {regsText args}, {type}"
  | .arrayGet dest array index _ => s!"aget r{dest}, r{array}, r{index}"
  | .arrayPut value array index _ => s!"aput r{value}, r{array}, r{index}"
  | .arrayLength dest array => s!"array-length r{dest}, r{array}"
  | .instanceGet dest object field => s!"iget r{dest}, r{object}, {field}"
  | .instancePut value object field => s!"iput r{value}, r{object}, {field}"
  | .staticGet dest field => s!"sget r{dest}, {field}"
  | .staticPut value field => s!"sput r{value}, {field}"
  | .checkCast value type => s!"check-cast r{value}, {type}"
  | .instanceOf dest value type => s!"instance-of r{dest}, r{value}, {type}"
  | .line number => s!".line {number}"

instance : ToString Instruction := ⟨text⟩

end Instruction

end BytecodeOpt
