import BytecodeOpt.Options
import BytecodeOpt.Outline.Shape
import BytecodeOpt.Program
import Std.Data.HashMap

/-!
# Selection of shapes

Counts how often each shape occurs in the program and makes a method for each one that occurs often
enough.
-/

namespace BytecodeOpt.Outline

structure Census where
  counts : Std.HashMap Shape Nat := {}
  shapes : Array Shape := #[]
  methods : List (MethodId × List Shape) := []

namespace Census

def count (c : Census) (s : Shape) : Nat := c.counts.getD s 0

def size (c : Census) : Nat := c.shapes.size

def add (c : Census) (s : Shape) : Census :=
  let n := c.count s
  { c with
    counts := c.counts.insert s (n + 1)
    shapes := if n = 0 then c.shapes.push s else c.shapes }

def record (c : Census) (m : MethodId) (shapes : List Shape) : Census :=
  if shapes.isEmpty then c
  else
    let counted := shapes.foldl add c
    { counted with methods := counted.methods ++ [(m, shapes)] }

end Census

structure Selection where
  type : TypeName
  methods : List (Shape × MethodId) := []
  reprocess : List MethodId := []
  deriving Repr, Inhabited

namespace Selection

def isEmpty (s : Selection) : Bool := s.methods.isEmpty

def size (s : Selection) : Nat := s.methods.length

def method? (s : Selection) (shape : Shape) : Option MethodId := s.methods.lookup shape

def isSelected (c : Census) (o : OutlineOptions) (s : Shape) : Bool :=
  o.threshold ≤ c.count s && o.minSize ≤ s.size && s.size ≤ o.maxSize

def ofCensus (c : Census) (program : Program) (o : OutlineOptions) : Selection :=
  let type := program.freshTypeName o.className
  let shapes := c.shapes.toList.filter (isSelected c o)
  { type
    methods := shapes.zipIdx.map fun (shape, index) =>
      (shape, { holder := type, name := s!"{o.methodStem}{index}", proto := shape.proto })
    reprocess := (c.methods.filter fun (_, found) => found.any (isSelected c o)).map Prod.fst }

def supportMethod (shape : Shape) (id : MethodId) : Method where
  id
  flags := { isPublic := true, isStatic := true, isSynthetic := true }
  code := some shape.code

def supportClass (s : Selection) : Class :=
  (s.methods.map fun (shape, id) => supportMethod shape id).foldl Class.addMethod
    { type := s.type, flags := { isPublic := true, isFinal := true, isSynthetic := true } }

end Selection

inductive Mode where
  | disabled
  | identify
  | apply (selection : Selection)
  deriving Repr, Inhabited

end BytecodeOpt.Outline
