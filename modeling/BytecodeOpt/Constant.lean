import BytecodeOpt.Type

/-!
# Constants

The values an instruction can load.  Numbers are machine words of their width.
-/

namespace BytecodeOpt

inductive Constant where
  | int (value : Int32)
  | long (value : Int64)
  | string (value : String)
  | type (value : TypeName)
  | null
  deriving DecidableEq, Hashable, Ord, Repr, Inhabited

namespace Constant

def text : Constant → String
  | .int n => toString n.toInt
  | .long n => toString n.toInt ++ "L"
  | .string s => Text.quote s
  | .type t => t.name ++ ".class"
  | .null => "null"

instance : ToString Constant := ⟨text⟩

def valueType : Constant → ValueType
  | .int _ => .int
  | .long _ => .long
  | _ => .reference

def toInt? : Constant → Option Int
  | .int n => some n.toInt
  | .long n => some n.toInt
  | _ => none

def string? : Constant → Option String
  | .string s => some s
  | _ => none

def isZero : Constant → Bool
  | .int n => n == 0
  | .long n => n == 0
  | .null => true
  | _ => false

def isType : Constant → Bool
  | .type _ => true
  | _ => false

end Constant

def ValueType.zero : ValueType → Constant
  | .long => .long 0
  | .reference => .null
  | _ => .int 0

end BytecodeOpt
