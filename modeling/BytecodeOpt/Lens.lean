import BytecodeOpt.Member

/-!
# Renaming

Pending renames of types and members, in layers.  A reference passes through the layers from the
oldest to the newest.  Within a layer a rename of the member itself wins; otherwise the types the
reference mentions are renamed.
-/

namespace BytecodeOpt

structure LensLayer where
  types : List (TypeName × TypeName) := []
  methods : List (MethodId × MethodId) := []
  fields : List (FieldId × FieldId) := []
  deriving DecidableEq, Repr, Inhabited

structure Lens where
  layers : List LensLayer := []
  deriving DecidableEq, Repr, Inhabited

def lookupLast {α β : Type} [BEq α] (key : α) (entries : List (α × β)) : Option β :=
  entries.reverse.lookup key

namespace LensLayer

def isEmpty (l : LensLayer) : Bool := l.types.isEmpty && l.methods.isEmpty && l.fields.isEmpty

def type (l : LensLayer) (t : TypeName) : TypeName := (lookupLast t l.types).getD t

def proto (l : LensLayer) (p : Proto) : Proto :=
  { returnType := l.type p.returnType, parameters := p.parameters.map l.type }

def method (l : LensLayer) (m : MethodId) : MethodId :=
  match lookupLast m l.methods with
  | some target => target
  | none => { m with holder := l.type m.holder, proto := l.proto m.proto }

def field (l : LensLayer) (f : FieldId) : FieldId :=
  match lookupLast f l.fields with
  | some target => target
  | none => { f with holder := l.type f.holder, type := l.type f.type }

end LensLayer

namespace Lens

def identity : Lens := {}

def isIdentity (lens : Lens) : Bool := lens.layers.isEmpty

def depth (lens : Lens) : Nat := lens.layers.length

def extend (lens : Lens) (layer : LensLayer) : Lens :=
  if layer.isEmpty then lens else { layers := lens.layers ++ [layer] }

def lookupType (lens : Lens) (t : TypeName) : TypeName :=
  lens.layers.foldl (fun t layer => layer.type t) t

def lookupMethod (lens : Lens) (m : MethodId) : MethodId :=
  lens.layers.foldl (fun m layer => layer.method m) m

def lookupField (lens : Lens) (f : FieldId) : FieldId :=
  lens.layers.foldl (fun f layer => layer.field f) f

end Lens

end BytecodeOpt
