import BytecodeOpt.Text.Blank
import BytecodeOpt.Type

/-!
# Members

Methods and fields are identified by their holder, name and type.  The written form of a method,
`holder.name(parameter,parameter)return`, is also the form in which method identities are read.
-/

namespace BytecodeOpt

structure Proto where
  returnType : TypeName
  parameters : List TypeName
  deriving DecidableEq, Hashable, Ord, Repr, Inhabited

structure MethodId where
  holder : TypeName
  name : String
  proto : Proto
  deriving DecidableEq, Hashable, Ord, Repr, Inhabited

structure FieldId where
  holder : TypeName
  name : String
  type : TypeName
  deriving DecidableEq, Hashable, Ord, Repr, Inhabited

namespace Proto

def text (p : Proto) : String :=
  "(" ++ ",".intercalate (p.parameters.map TypeName.name) ++ ")" ++ p.returnType.name

instance : ToString Proto := ⟨text⟩

def arity (p : Proto) : Nat := p.parameters.length

def withReceiver (p : Proto) (receiver : TypeName) : Proto :=
  { p with parameters := receiver :: p.parameters }

end Proto

namespace MethodId

def text (m : MethodId) : String := m.holder.name ++ "." ++ m.name ++ m.proto.text

instance : ToString MethodId := ⟨text⟩

def qualifiedName (m : MethodId) : String := m.holder.name ++ "." ++ m.name

def instanceInitializer : String := "<init>"

def classInitializer : String := "<clinit>"

def isInitializer (m : MethodId) : Bool :=
  m.name == instanceInitializer || m.name == classInitializer

def withHolder (m : MethodId) (holder : TypeName) : MethodId := { m with holder }

def splitFirst? (separator : Char) : List Char → Option (List Char × List Char)
  | [] => none
  | c :: rest =>
    if c = separator then some ([], rest)
    else (splitFirst? separator rest).map fun (before, after) => (c :: before, after)

def splitLast? (separator : Char) (cs : List Char) : Option (List Char × List Char) :=
  (splitFirst? separator cs.reverse).map fun (after, before) => (before.reverse, after.reverse)

def splitAll (separator : Char) : List Char → List (List Char)
  | [] => [[]]
  | c :: rest =>
    match splitAll separator rest with
    | [] => [[c]]
    | part :: parts => if c = separator then [] :: part :: parts else (c :: part) :: parts

def parseParameters (cs : List Char) : List TypeName :=
  (((splitAll ',' cs).map Text.trim).filter (· ≠ [])).map fun part => ⟨String.ofList part⟩

/-- Reads the written form.  The parameters stand between the first `(` and the last `)`, blank ones
are skipped, and neither the name nor the return type may be empty. -/
def parseChars? (cs : List Char) : Option MethodId := do
  let (qualified, afterOpen) ← splitFirst? '(' cs
  let (inside, afterClose) ← splitLast? ')' afterOpen
  let (holder, name) ← splitLast? '.' qualified
  let returned := Text.trim afterClose
  if name.isEmpty || returned.isEmpty then none
  else some {
    holder := ⟨String.ofList holder⟩
    name := String.ofList name
    proto := {
      returnType := ⟨String.ofList returned⟩
      parameters := parseParameters inside } }

def parse? (text : String) : Option MethodId := parseChars? text.toList

end MethodId

namespace FieldId

def text (f : FieldId) : String := f.holder.name ++ "." ++ f.name ++ ":" ++ f.type.name

instance : ToString FieldId := ⟨text⟩

end FieldId

end BytecodeOpt
