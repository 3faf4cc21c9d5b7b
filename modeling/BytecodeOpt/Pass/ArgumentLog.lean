import BytecodeOpt.Pass.Change

/-!
# Logging of arguments

Lets a method print its arguments when it is entered.
-/

namespace BytecodeOpt.Pass.ArgumentLog

open Ssa

def printStream : TypeName := ⟨"java.io.PrintStream"⟩

def println (parameter : TypeName) : MethodId where
  holder := printStream
  name := "println"
  proto := { returnType := .void, parameters := [parameter] }

def standardOut : FieldId := ⟨⟨"java.lang.System"⟩, "out", printStream⟩

def print (out : Operand) (parameter : TypeName) (value : Operand) : Op :=
  .invoke .virtual (println parameter) [out, value] none

def log (body : Body) (out heading : Operand) (arguments : List Operand) : List Op :=
  [.staticGet out standardOut, .const heading (.string "Arguments:"), print out .string heading]
    ++ arguments.map fun v => print out (body.valueType v).typeName v

def run (method : MethodId) (body : Body) : Change :=
  let entry := body.block 0
  let arguments := (entry.ops.filter Op.isArgument).filterMap Op.dest?
  let out := body.valueCount
  let log := log body out (out + 1) arguments
  let extended := (body.addValue .reference).addValue .reference
  let last := entry.ops.length - 1
  { body := extended.modifyBlock 0 fun b =>
      { b with ops := b.ops.take last ++ log ++ b.ops.drop last }
    events :=
      [{ kind := .argumentsLogged, method := some method, source := some "argument-logging" }]
    changed := true }

end BytecodeOpt.Pass.ArgumentLog
