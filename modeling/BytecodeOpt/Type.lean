import BytecodeOpt.Text.Quoted

/-!
# Types

A type is known by its source name; an array type is the element's name followed by `[]`.  What a
register holds is coarser: the small integers share `int`, and everything that is not a number is a
reference.
-/

namespace BytecodeOpt

structure TypeName where
  name : String
  deriving DecidableEq, Hashable, Ord, Repr, Inhabited

inductive ValueType where
  | int
  | long
  | float
  | double
  | reference
  deriving DecidableEq, Hashable, Ord, Repr, Inhabited

inductive NumericType where
  | int
  | long
  deriving DecidableEq, Hashable, Ord, Repr, Inhabited

namespace TypeName

instance : ToString TypeName := ⟨TypeName.name⟩

def void : TypeName := ⟨"void"⟩
def int : TypeName := ⟨"int"⟩
def long : TypeName := ⟨"long"⟩
def float : TypeName := ⟨"float"⟩
def double : TypeName := ⟨"double"⟩
def object : TypeName := ⟨"java.lang.Object"⟩
def string : TypeName := ⟨"java.lang.String"⟩

def quoted (t : TypeName) : String := Text.quote t.name

def isVoid (t : TypeName) : Bool := t == void

def primitiveNames : List String :=
  ["void", "boolean", "byte", "short", "char", "int", "long", "float", "double"]

def isPrimitive (t : TypeName) : Bool := primitiveNames.contains t.name

def elementOfReversed? : List Char → Option (List Char)
  | ']' :: '[' :: rest => some rest
  | _ => none

def baseOfReversed : List Char → List Char
  | ']' :: '[' :: rest => baseOfReversed rest
  | name => name

def element? (t : TypeName) : Option TypeName :=
  (elementOfReversed? t.name.toList.reverse).map fun rest => ⟨String.ofList rest.reverse⟩

def isArray (t : TypeName) : Bool := t.element?.isSome

def arrayOf (t : TypeName) : TypeName := ⟨t.name ++ "[]"⟩

/-- What stands before the last dot of the innermost element's name, empty if there is none. -/
def package (t : TypeName) : String :=
  String.ofList (((baseOfReversed t.name.toList.reverse).dropWhile (· ≠ '.')).drop 1).reverse

def simpleName (t : TypeName) : String :=
  String.ofList (t.name.toList.reverse.takeWhile (· ≠ '.')).reverse

def withSuffix (t : TypeName) (suffix : String) : TypeName := ⟨t.name ++ suffix⟩

def valueType (t : TypeName) : ValueType :=
  match t.name with
  | "boolean" | "byte" | "short" | "char" | "int" => .int
  | "long" => .long
  | "float" => .float
  | "double" => .double
  | _ => .reference

end TypeName

namespace ValueType

def text : ValueType → String
  | .int => "int"
  | .long => "long"
  | .float => "float"
  | .double => "double"
  | .reference => "reference"

instance : ToString ValueType := ⟨text⟩

def all : List ValueType := [.int, .long, .float, .double, .reference]

def ofText? (s : String) : Option ValueType := all.find? (·.text = s)

theorem ofText?_text (t : ValueType) : ofText? t.text = some t := by
  cases t <;> rfl

def typeName : ValueType → TypeName
  | .int => .int
  | .long => .long
  | .float => .float
  | .double => .double
  | .reference => .object

end ValueType

namespace NumericType

def text : NumericType → String
  | .int => "int"
  | .long => "long"

instance : ToString NumericType := ⟨text⟩

def all : List NumericType := [.int, .long]

def ofText? (s : String) : Option NumericType := all.find? (·.text = s)

theorem ofText?_text (t : NumericType) : ofText? t.text = some t := by
  cases t <;> rfl

def valueType : NumericType → ValueType
  | .int => .int
  | .long => .long

def width : NumericType → Nat
  | .int => 32
  | .long => 64

end NumericType

end BytecodeOpt
