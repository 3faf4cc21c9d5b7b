import BytecodeOpt.Program

/-!
# Lambda classes

A lambda creation site becomes a call of a factory.  The factory belongs to a class made for the
site, which keeps the captured values in fields and hands them to the implementation.
-/

namespace BytecodeOpt

structure LambdaNames where
  names : List (CallSite × TypeName) := []
  deriving DecidableEq, Repr, Inhabited

namespace LambdaNames

def class? (l : LambdaNames) (site : CallSite) : Option TypeName := l.names.lookup site

def sitesOf (program : Program) : List CallSite :=
  (program.methods.filterMap Method.code).flatMap fun code =>
    code.instructions.filterMap fun
      | .invokeCustom site _ => some site
      | _ => none

def baseName (site : CallSite) : String :=
  s!"{site.implementation.holder}$$Lambda${site.implementation.name}"

/-- The names to try: the base itself, then the base with `$1`, `$2`, … behind. -/
def candidate (base : String) (n : Nat) : TypeName := if n = 0 then ⟨base⟩ else ⟨s!"{base}${n}"⟩

/-- The first name that is neither taken nor a class of the program; there are no more names in the
way than names taken and classes. -/
def freshName (program : Program) (taken : List TypeName) (base : String) : TypeName :=
  (((List.range (taken.length + program.classes.length + 1)).map (candidate base)).find?
    fun name => !taken.contains name && !program.isProgramType name).getD ⟨base⟩

def add (program : Program) (l : LambdaNames) (site : CallSite) : LambdaNames :=
  if (l.class? site).isSome then l
  else
    { names := l.names
        ++ [(site, freshName program (l.names.map Prod.snd) (baseName site))] }

def ofProgram (program : Program) : LambdaNames := (sitesOf program).foldl (add program) {}

end LambdaNames

namespace Lambda

/-- The name of the hook that reads a stored lambda back, which lambda classes do not support. -/
def deserializeHook : String := "$deserializeLambda$"

/-- The types of the captured values: the first parameters of the implementation, those that the
interface method does not supply. -/
def capturedTypes (site : CallSite) : List TypeName :=
  let receiver := if site.implementationKind.hasReceiver then [site.implementation.holder] else []
  let parameters := receiver ++ site.implementation.proto.parameters
  parameters.take (parameters.length - site.methodProto.arity)

def factory (type : TypeName) (site : CallSite) : MethodId where
  holder := type
  name := "create"
  proto := { returnType := site.interface, parameters := capturedTypes site }

def fields (type : TypeName) (site : CallSite) : List FieldId :=
  (capturedTypes site).zipIdx.map fun (fieldType, index) => ⟨type, s!"f${index}", fieldType⟩

def constructor (type : TypeName) (site : CallSite) : MethodId where
  holder := type
  name := MethodId.instanceInitializer
  proto := { returnType := .void, parameters := capturedTypes site }

def objectConstructor : MethodId where
  holder := .object
  name := MethodId.instanceInitializer
  proto := { returnType := .void, parameters := [] }

def constructorCode (type : TypeName) (site : CallSite) : Code :=
  let fields := fields type site
  { registers := fields.length + 1
    ins := fields.length + 1
    instructions := .invoke .direct objectConstructor [0]
      :: (fields.zipIdx.map fun (field, index) => .instancePut (index + 1) 0 field) ++ [.ret none]
    tries := [] }

def factoryCode (type : TypeName) (site : CallSite) : Code :=
  let count := (capturedTypes site).length
  { registers := count + 1
    ins := count
    instructions :=
      [.newInstance count type,
        .invoke .direct (constructor type site) (count :: List.range count),
        .ret (some count)]
    tries := [] }

def resultCode (site : CallSite) (result : Reg) : List Instruction :=
  if site.methodProto.returnType.isVoid then [.ret none]
  else if site.implementation.proto.returnType.isVoid then
    [.const result site.methodProto.returnType.valueType.zero, .ret (some result)]
  else [.moveResult result, .ret (some result)]

/-- The object and the parameters come first, then the captured values, then the result. -/
def methodCode (type : TypeName) (site : CallSite) : Code :=
  let fields := fields type site
  let ins := site.methodProto.arity + 1
  let loads := fields.zipIdx.map fun (field, index) => Instruction.instanceGet (ins + index) 0 field
  let args := List.range' ins fields.length ++ List.range' 1 (ins - 1)
  { registers := ins + fields.length + 1
    ins
    instructions := loads ++ .invoke site.implementationKind site.implementation args
      :: resultCode site (ins + fields.length)
    tries := [] }

def methods (type : TypeName) (site : CallSite) : List Method :=
  [{ id := constructor type site
     flags := { isPrivate := true, isConstructor := true, isSynthetic := true }
     code := some (constructorCode type site) },
   { id := factory type site
     flags := { isPublic := true, isStatic := true, isSynthetic := true }
     code := some (factoryCode type site) },
   { id := { holder := type, name := site.methodName, proto := site.methodProto }
     flags := { isPublic := true, isFinal := true, isSynthetic := true }
     code := some (methodCode type site) }]

def classFor (type : TypeName) (site : CallSite) : Class :=
  (methods type site).foldl Class.addMethod
    { type
      flags := { isFinal := true, isSynthetic := true }
      interfaces := [site.interface]
      fields := (fields type site).map fun id =>
        { id, flags := { isPrivate := true, isFinal := true, isSynthetic := true } } }

end Lambda

end BytecodeOpt
