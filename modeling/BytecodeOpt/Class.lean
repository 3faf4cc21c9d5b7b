import BytecodeOpt.Method

/-!
# Classes

A class holds the methods that are subject to dispatch apart from the others.
-/

namespace BytecodeOpt

structure Field where
  id : FieldId
  flags : FieldFlags
  value : Option Constant := none
  deriving DecidableEq, Repr, Inhabited

def Field.isConstant (f : Field) : Bool := f.flags.isStatic && f.flags.isFinal && f.value.isSome

structure Class where
  type : TypeName
  flags : ClassFlags
  superclass : Option TypeName := some .object
  interfaces : List TypeName := []
  direct : List Method := []
  virtual : List Method := []
  fields : List Field := []
  deriving DecidableEq, Repr, Inhabited

namespace Class

def addMethod (c : Class) (m : Method) : Class :=
  if m.isVirtual then { c with virtual := c.virtual ++ [m] }
  else { c with direct := c.direct ++ [m] }

def methods (c : Class) : List Method := c.direct ++ c.virtual

def method? (c : Class) (id : MethodId) : Option Method := c.methods.find? (·.id = id)

def mapMethods (c : Class) (f : Method → Method) : Class :=
  { c with direct := c.direct.map f, virtual := c.virtual.map f }

def modifyFirst {α : Type} (p : α → Bool) (f : α → α) : List α → List α
  | [] => []
  | a :: rest => if p a then f a :: rest else a :: modifyFirst p f rest

def modifyMethod (c : Class) (id : MethodId) (f : Method → Method) : Class :=
  if c.direct.any (·.id = id) then { c with direct := modifyFirst (·.id = id) f c.direct }
  else { c with virtual := modifyFirst (·.id = id) f c.virtual }

def removeMethod (c : Class) (id : MethodId) : Class :=
  if c.direct.any (·.id = id) then { c with direct := c.direct.eraseP (·.id = id) }
  else { c with virtual := c.virtual.eraseP (·.id = id) }

def field? (c : Class) (id : FieldId) : Option Field := c.fields.find? (·.id = id)

def hasClassInitializer (c : Class) : Bool :=
  c.direct.any (·.id.name = MethodId.classInitializer)

end Class

end BytecodeOpt
