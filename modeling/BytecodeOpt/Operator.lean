import BytecodeOpt.Type

/-!
# Operators

Arithmetic on machine words, the conditions of branches and the kinds of invocation.  Evaluation is
stated once for words of any width; folding picks the width an instruction works on.
-/

namespace BytecodeOpt

inductive BinaryOp where
  | add
  | sub
  | mul
  | div
  | rem
  | and
  | or
  | xor
  | shl
  | shr
  | ushr
  | cmp
  deriving DecidableEq, Hashable, Ord, Repr, Inhabited

inductive UnaryOp where
  | neg
  | not
  | intToLong
  | longToInt
  deriving DecidableEq, Hashable, Ord, Repr, Inhabited

inductive Condition where
  | eq
  | ne
  | lt
  | ge
  | gt
  | le
  deriving DecidableEq, Hashable, Ord, Repr, Inhabited

inductive InvokeKind where
  | static
  | direct
  | virtual
  | super
  | interface
  deriving DecidableEq, Hashable, Ord, Repr, Inhabited

namespace BinaryOp

def text : BinaryOp → String
  | .add => "add"
  | .sub => "sub"
  | .mul => "mul"
  | .div => "div"
  | .rem => "rem"
  | .and => "and"
  | .or => "or"
  | .xor => "xor"
  | .shl => "shl"
  | .shr => "shr"
  | .ushr => "ushr"
  | .cmp => "cmp"

instance : ToString BinaryOp := ⟨text⟩

def all : List BinaryOp := [.add, .sub, .mul, .div, .rem, .and, .or, .xor, .shl, .shr, .ushr, .cmp]

def ofText? (s : String) : Option BinaryOp := all.find? (·.text = s)

theorem ofText?_text (op : BinaryOp) : ofText? op.text = some op := by
  cases op <;> rfl

def isCommutative : BinaryOp → Bool
  | .add | .mul | .and | .or | .xor => true
  | _ => false

def canThrow : BinaryOp → Bool
  | .div | .rem => true
  | _ => false

/-- Evaluates on words of `w` bits.  Arithmetic wraps, a shift distance counts modulo the width, and
there is no quotient or remainder by zero. -/
def eval {w : Nat} (op : BinaryOp) (a b : BitVec w) : Option (BitVec w) :=
  match op with
  | .add => some (a + b)
  | .sub => some (a - b)
  | .mul => some (a * b)
  | .div => if b = 0 then none else some (a.sdiv b)
  | .rem => if b = 0 then none else some (a.srem b)
  | .and => some (a &&& b)
  | .or => some (a ||| b)
  | .xor => some (a ^^^ b)
  | .shl => some (a <<< (b.toNat % w))
  | .shr => some (a.sshiftRight (b.toNat % w))
  | .ushr => some (a >>> (b.toNat % w))
  | .cmp => some (if a.slt b then -1 else if a = b then 0 else 1)

def fold (op : BinaryOp) (type : NumericType) (left right : Int) : Option Int :=
  (op.eval (BitVec.ofInt type.width left) (BitVec.ofInt type.width right)).map BitVec.toInt

end BinaryOp

namespace UnaryOp

def text : UnaryOp → String
  | .neg => "neg"
  | .not => "not"
  | .intToLong => "int-to-long"
  | .longToInt => "long-to-int"

instance : ToString UnaryOp := ⟨text⟩

def all : List UnaryOp := [.neg, .not, .intToLong, .longToInt]

def ofText? (s : String) : Option UnaryOp := all.find? (·.text = s)

theorem ofText?_text (op : UnaryOp) : ofText? op.text = some op := by
  cases op <;> rfl

def width (op : UnaryOp) (operand : ValueType) : Nat :=
  match op, operand with
  | .neg, .long | .not, .long => 64
  | _, _ => 32

def fold (op : UnaryOp) (value : Int) (operand : ValueType) : Int :=
  let word := BitVec.ofInt (op.width operand) value
  match op with
  | .neg => (-word).toInt
  | .not => (~~~word).toInt
  | .intToLong | .longToInt => word.toInt

end UnaryOp

namespace Condition

def text : Condition → String
  | .eq => "eq"
  | .ne => "ne"
  | .lt => "lt"
  | .ge => "ge"
  | .gt => "gt"
  | .le => "le"

instance : ToString Condition := ⟨text⟩

def all : List Condition := [.eq, .ne, .lt, .ge, .gt, .le]

def ofText? (s : String) : Option Condition := all.find? (·.text = s)

theorem ofText?_text (c : Condition) : ofText? c.text = some c := by
  cases c <;> rfl

def holds (c : Condition) (left right : Int) : Bool :=
  match c with
  | .eq => left == right
  | .ne => left != right
  | .lt => left < right
  | .ge => right ≤ left
  | .gt => right < left
  | .le => left ≤ right

def swapped : Condition → Condition
  | .eq => .eq
  | .ne => .ne
  | .lt => .gt
  | .ge => .le
  | .gt => .lt
  | .le => .ge

theorem holds_swapped (c : Condition) (left right : Int) :
    c.swapped.holds right left = c.holds left right := by
  cases c <;> simp [swapped, holds, Bool.beq_comm, bne]

end Condition

namespace InvokeKind

def text : InvokeKind → String
  | .static => "static"
  | .direct => "direct"
  | .virtual => "virtual"
  | .super => "super"
  | .interface => "interface"

instance : ToString InvokeKind := ⟨text⟩

def all : List InvokeKind := [.static, .direct, .virtual, .super, .interface]

def ofText? (s : String) : Option InvokeKind := all.find? (·.text = s)

theorem ofText?_text (kind : InvokeKind) : ofText? kind.text = some kind := by
  cases kind <;> rfl

def hasReceiver : InvokeKind → Bool
  | .static => false
  | _ => true

def isDispatched : InvokeKind → Bool
  | .virtual | .interface => true
  | _ => false

end InvokeKind

end BytecodeOpt
