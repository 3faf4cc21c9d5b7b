import BytecodeOpt.Code

/-!
# Block operations

The operations of code that has been cut into blocks.  Operands are numbers: in SSA form each names
a value with one definition, after register allocation it names a register.  Branches name blocks.
-/

namespace BytecodeOpt

abbrev Operand := Nat

abbrev BlockId := Nat

inductive Op where
  | argument (dest : Operand) (index : Nat)
  | const (dest : Operand) (value : Constant)
  | move (dest source : Operand)
  | moveException (dest : Operand)
  | binary (op : BinaryOp) (type : NumericType) (dest left right : Operand)
  | unary (op : UnaryOp) (dest source : Operand)
  | invoke (kind : InvokeKind) (method : MethodId) (args : List Operand) (dest : Option Operand)
  | invokeCustom (site : CallSite) (args : List Operand) (dest : Option Operand)
  | newInstance (dest : Operand) (type : TypeName)
  | newArray (dest size : Operand) (type : TypeName)
  | filledNewArray (dest : Option Operand) (type : TypeName) (args : List Operand)
  | arrayGet (dest array index : Operand) (type : ValueType)
  | arrayPut (value array index : Operand) (type : ValueType)
  | arrayLength (dest array : Operand)
  | instanceGet (dest object : Operand) (field : FieldId)
  | instancePut (value object : Operand) (field : FieldId)
  | staticGet (dest : Operand) (field : FieldId)
  | staticPut (value : Operand) (field : FieldId)
  | checkCast (dest value : Operand) (type : TypeName)
  | instanceOf (dest value : Operand) (type : TypeName)
  | nullCheck (value : Operand)
  | line (number : Nat)
  | goto (target : BlockId)
  | branch (cond : Condition) (left : Operand) (right : Option Operand) (onTrue onFalse : BlockId)
  | switch (value : Operand) (keys : List Int) (targets : List BlockId) (default : BlockId)
  | ret (value : Option Operand)
  | throw (value : Operand)
  deriving DecidableEq, Repr, Inhabited

namespace Op

/-- Values and blocks are named by 32-bit numbers; of a larger number the low bits count. -/
def nameOf (n : Nat) : Nat := n % 4294967296

def dest? : Op → Option Operand
  | .argument dest _ | .const dest _ | .move dest _ | .moveException dest
  | .binary _ _ dest _ _ | .unary _ dest _ | .newInstance dest _ | .newArray dest _ _
  | .arrayGet dest _ _ _ | .arrayLength dest _ | .instanceGet dest _ _ | .staticGet dest _
  | .checkCast dest _ _ | .instanceOf dest _ _ => some dest
  | .invoke _ _ _ dest | .invokeCustom _ _ dest | .filledNewArray dest _ _ => dest
  | _ => none

def mapDest (f : Operand → Operand) : Op → Op
  | .argument dest index => .argument (f dest) index
  | .const dest value => .const (f dest) value
  | .move dest source => .move (f dest) source
  | .moveException dest => .moveException (f dest)
  | .binary op type dest left right => .binary op type (f dest) left right
  | .unary op dest source => .unary op (f dest) source
  | .invoke kind method args dest => .invoke kind method args (dest.map f)
  | .invokeCustom site args dest => .invokeCustom site args (dest.map f)
  | .newInstance dest type => .newInstance (f dest) type
  | .newArray dest size type => .newArray (f dest) size type
  | .filledNewArray dest type args => .filledNewArray (dest.map f) type args
  | .arrayGet dest array index type => .arrayGet (f dest) array index type
  | .arrayLength dest array => .arrayLength (f dest) array
  | .instanceGet dest object field => .instanceGet (f dest) object field
  | .staticGet dest field => .staticGet (f dest) field
  | .checkCast dest value type => .checkCast (f dest) value type
  | .instanceOf dest value type => .instanceOf (f dest) value type
  | other => other

def uses : Op → List Operand
  | .move _ source | .unary _ _ source => [source]
  | .binary _ _ _ left right => [left, right]
  | .invoke _ _ args _ | .invokeCustom _ args _ | .filledNewArray _ _ args => args
  | .newArray _ size _ => [size]
  | .arrayGet _ array index _ => [array, index]
  | .arrayPut value array index _ => [value, array, index]
  | .arrayLength _ array => [array]
  | .instanceGet _ object _ => [object]
  | .instancePut value object _ => [value, object]
  | .staticPut value _ | .checkCast _ value _ | .instanceOf _ value _ | .nullCheck value
  | .throw value | .switch value _ _ _ => [value]
  | .branch _ left right _ _ => left :: right.toList
  | .ret value => value.toList
  | _ => []

def mapUses (f : Operand → Operand) : Op → Op
  | .move dest source => .move dest (f source)
  | .unary op dest source => .unary op dest (f source)
  | .binary op type dest left right => .binary op type dest (f left) (f right)
  | .invoke kind method args dest => .invoke kind method (args.map f) dest
  | .invokeCustom site args dest => .invokeCustom site (args.map f) dest
  | .newArray dest size type => .newArray dest (f size) type
  | .filledNewArray dest type args => .filledNewArray dest type (args.map f)
  | .arrayGet dest array index type => .arrayGet dest (f array) (f index) type
  | .arrayPut value array index type => .arrayPut (f value) (f array) (f index) type
  | .arrayLength dest array => .arrayLength dest (f array)
  | .instanceGet dest object field => .instanceGet dest (f object) field
  | .instancePut value object field => .instancePut (f value) (f object) field
  | .staticPut value field => .staticPut (f value) field
  | .checkCast dest value type => .checkCast dest (f value) type
  | .instanceOf dest value type => .instanceOf dest (f value) type
  | .nullCheck value => .nullCheck (f value)
  | .branch cond left right onTrue onFalse =>
    .branch cond (f left) (right.map f) onTrue onFalse
  | .switch value keys targets default => .switch (f value) keys targets default
  | .ret value => .ret (value.map f)
  | .throw value => .throw (f value)
  | other => other

theorem uses_mapUses (f : Operand → Operand) (op : Op) : (op.mapUses f).uses = op.uses.map f := by
  cases op with
  | branch _ _ right _ _ => cases right <;> rfl
  | ret value => cases value <;> rfl
  | _ => rfl

theorem dest?_mapUses (f : Operand → Operand) (op : Op) : (op.mapUses f).dest? = op.dest? := by
  cases op <;> rfl

def isTerminator : Op → Bool
  | .goto _ | .branch .. | .switch .. | .ret _ | .throw _ => true
  | _ => false

def isArgument : Op → Bool
  | .argument .. => true
  | _ => false

def isMoveException : Op → Bool
  | .moveException _ => true
  | _ => false

def isLine : Op → Bool
  | .line _ => true
  | _ => false

def targets : Op → List BlockId
  | .goto target => [target]
  | .branch _ _ _ onTrue onFalse => [onTrue, onFalse]
  | .switch _ _ targets default => targets ++ [default]
  | _ => []

def successors (op : Op) : List BlockId := op.targets.eraseDups

def mapTargets (f : BlockId → BlockId) : Op → Op
  | .goto target => .goto (f target)
  | .branch cond left right onTrue onFalse => .branch cond left right (f onTrue) (f onFalse)
  | .switch value keys targets default => .switch value keys (targets.map f) (f default)
  | other => other

def canThrow : Op → Bool
  | .binary op .. => op.canThrow
  | .const _ value => value.isType
  | .invoke .. | .invokeCustom .. | .newInstance .. | .newArray .. | .filledNewArray ..
  | .arrayGet .. | .arrayPut .. | .arrayLength .. | .instanceGet .. | .instancePut ..
  | .staticGet .. | .staticPut .. | .checkCast .. | .nullCheck _ | .throw _ => true
  | _ => false

/-- The operation must stay even if its result is never read. -/
def hasSideEffects : Op → Bool
  | .binary op .. => op.canThrow
  | .invoke .. | .invokeCustom .. | .arrayPut .. | .instancePut .. | .staticPut .. | .checkCast ..
  | .nullCheck _ | .argument .. | .line _ => true
  | other => other.isTerminator

def isPure : Op → Bool
  | .binary op .. => !op.canThrow
  | .unary .. | .instanceOf .. => true
  | .const _ value => !value.isType
  | _ => false

def isCounted : Op → Bool
  | .argument .. | .line _ | .goto _ => false
  | _ => true

/-! ## Text -/

def valueText (v : Operand) : String := s!"v{v}"

def blockText (b : BlockId) : String := s!"B{b}"

def valuesText (vs : List Operand) : String := ", ".intercalate (vs.map valueText)

def actionText : Op → String
  | .argument _ index => s!"argument {index}"
  | .const _ value => s!"const {value}"
  | .move _ source => s!"move v{source}"
  | .moveException _ => "move-exception"
  | .binary op type _ left right => s!"{op}-{type} v{left}, v{right}"
  | .unary op _ source => s!"{op} v{source}"
  | .invoke kind method args _ => s!"invoke-{kind} {method}({valuesText args})"
  | .invokeCustom site args _ =>
    s!"invoke-custom {site.interface}::{site.implementation}({valuesText args})"
  | .newInstance _ type => s!"new-instance {type}"
  | .newArray _ size type => s!"new-array {type}[v{size}]"
  | .filledNewArray _ type args => s!"filled-new-array {type} " ++ "\x7b" ++
      valuesText args ++ "\x7d"
  | .arrayGet _ array index _ => s!"aget v{array}[v{index}]"
  | .arrayPut value array index _ => s!"aput v{array}[v{index}] = v{value}"
  | .arrayLength _ array => s!"array-length v{array}"
  | .instanceGet _ object field => s!"iget v{object}.{field}"
  | .instancePut value object field => s!"iput v{object}.{field} = v{value}"
  | .staticGet _ field => s!"sget {field}"
  | .staticPut value field => s!"sput {field} = v{value}"
  | .checkCast _ value type => s!"check-cast v{value} {type}"
  | .instanceOf _ value type => s!"instance-of v{value} {type}"
  | .nullCheck value => s!"null-check v{value}"
  | .line number => s!".line {number}"
  | .goto target => s!"goto B{target}"
  | .branch cond left (some right) onTrue onFalse =>
    s!"if-{cond} v{left}, v{right} then B{onTrue} else B{onFalse}"
  | .branch cond left none onTrue onFalse =>
    s!"if-{cond}z v{left} then B{onTrue} else B{onFalse}"
  | .switch value keys targets default =>
    s!"switch v{value}" ++ "".intercalate ((keys.zip targets).map fun (k, t) => s!" {k}:B{t}")
      ++ s!" default:B{default}"
  | .ret (some value) => s!"return v{value}"
  | .ret none => "return-void"
  | .throw value => s!"throw v{value}"

def text (op : Op) : String :=
  match op.dest? with
  | some dest => s!"v{dest} <- {op.actionText}"
  | none => op.actionText

instance : ToString Op := ⟨text⟩

end Op

end BytecodeOpt
