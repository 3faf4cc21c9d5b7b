import BytecodeOpt.Text.Glob

/-!
# Kept attributes

Which attributes of the input classes survive.  Nothing else depends on them, but some combinations
would make the output unusable.
-/

namespace BytecodeOpt

inductive Attribute where
  | innerClasses
  | enclosingMethod
  | signature
  | exceptions
  | sourceDebugExtension
  | annotationDefault
  deriving DecidableEq, Repr, Inhabited

namespace Attribute

def text : Attribute → String
  | .innerClasses => "InnerClasses"
  | .enclosingMethod => "EnclosingMethod"
  | .signature => "Signature"
  | .exceptions => "Exceptions"
  | .sourceDebugExtension => "SourceDebugExtension"
  | .annotationDefault => "AnnotationDefault"

instance : ToString Attribute := ⟨text⟩

def all : List Attribute :=
  [.innerClasses, .enclosingMethod, .signature, .exceptions, .sourceDebugExtension,
    .annotationDefault]

def ofText? (s : String) : Option Attribute := all.find? (·.text = s)

theorem ofText?_text (a : Attribute) : ofText? a.text = some a := by
  cases a <;> rfl

end Attribute

structure Attributes where
  kept : List Attribute := []
  deriving DecidableEq, Repr, Inhabited

namespace Attributes

inductive Fault where
  | missing (kept required : Attribute)
  | signatureWhenMinifying
  deriving DecidableEq, Repr, Inhabited

def Fault.message : Fault → String
  | .missing kept required =>
    s!"Attribute {kept} requires {required} attribute. Check -keepattributes directive."
  | .signatureWhenMinifying =>
    "Attribute Signature cannot be kept when minifying. "
      ++ "Remove Signature from the retained attributes or disable minification."

def keeps (as : Attributes) (a : Attribute) : Bool := as.kept.contains a

def keepAll : Attributes := { kept := Attribute.all }

def selects (name : String) : List String → Bool
  | [] => false
  | pattern :: rest =>
    match pattern.toList with
    | '!' :: negated =>
      if Text.Glob.isMatch (String.ofList negated) name then false else selects name rest
    | _ => Text.Glob.isMatch pattern name || selects name rest

def apply (as : Attributes) (patterns : List String) : Attributes :=
  { kept := Attribute.all.filter fun a => as.keeps a || selects a.text patterns }

def check (as : Attributes) (minifying : Bool) : Except Fault Unit :=
  if as.keeps .innerClasses && !as.keeps .enclosingMethod then
    .error (.missing .innerClasses .enclosingMethod)
  else if !as.keeps .innerClasses && as.keeps .enclosingMethod then
    .error (.missing .enclosingMethod .innerClasses)
  else if as.keeps .signature && !as.keeps .innerClasses then
    .error (.missing .signature .innerClasses)
  else if minifying && as.keeps .signature then .error .signatureWhenMinifying
  else .ok ()

end Attributes

end BytecodeOpt
