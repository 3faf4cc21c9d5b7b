import BytecodeOpt.Op
import BytecodeOpt.Text.Alphanumeric

/-!
# Register code

A body after allocation: blocks in their final order, with operands that name registers.
-/

namespace BytecodeOpt

structure RegisterBlock where
  id : BlockId
  ops : List Op
  handlers : List Handler := []
  deriving DecidableEq, Repr, Inhabited

structure RegisterCode where
  method : MethodId
  blocks : List RegisterBlock
  registers : Nat
  ins : Nat
  deriving DecidableEq, Repr, Inhabited

namespace RegisterBlock

def terminator? (b : RegisterBlock) : Option Op := b.ops.getLast?.filter Op.isTerminator

def gotoTarget? (b : RegisterBlock) : Option BlockId :=
  match b.ops, b.handlers with
  | [.goto target], [] => some target
  | _, _ => none

end RegisterBlock

namespace RegisterCode

def indexOf? (code : RegisterCode) (b : BlockId) : Option Nat := code.blocks.findIdx? (·.id = b)

def ops (code : RegisterCode) : List Op := code.blocks.flatMap RegisterBlock.ops

def instructionCount (code : RegisterCode) : Nat := code.ops.length

/-- The register an operand names; there are no more than a 16-bit number can name. -/
def register (v : Operand) : Reg := v % 65536

/-! ## Text -/

/-- Writes `r` for the `v` of every operand: a `v` with a digit behind it and no letter or digit
before it. -/
def renameFrom (previous : Char) : List Char → List Char
  | [] => []
  | c :: rest =>
    let isOperand := c == 'v' && !Text.isAlphanumeric previous && rest.head?.any Char.isDigit
    (if isOperand then 'r' else c) :: renameFrom c rest

def opText (op : Op) : String := String.ofList (renameFrom ' ' op.text.toList)

def handlerText (h : Handler) : String :=
  match h.guard with
  | some guard => s!" catch {guard} -> B{h.target}"
  | none => s!" catch-all -> B{h.target}"

def blockText (b : RegisterBlock) : String :=
  s!"B{b.id}:" ++ "".intercalate (b.handlers.map handlerText) ++ "\n"
    ++ "".intercalate (b.ops.map fun op => s!"  {opText op}\n")

def text (code : RegisterCode) : String :=
  s!"{code.method} registers={code.registers} ins={code.ins}\n"
    ++ "".intercalate (code.blocks.map blockText)

instance : ToString RegisterCode := ⟨text⟩

end RegisterCode

end BytecodeOpt
