import BytecodeOpt.Instruction

/-!
# Code

A method body: a frame of registers whose first ones receive the arguments, the instructions, and
the ranges in which exceptions are caught.
-/

namespace BytecodeOpt

/-- A catch clause; without a guard it catches everything.  The target is an instruction index in
code and a block number in a block graph. -/
structure Handler where
  guard : Option TypeName
  target : Nat
  deriving DecidableEq, Hashable, Repr, Inhabited

structure TryRange where
  start : Nat
  stop : Nat
  handlers : List Handler
  deriving DecidableEq, Repr, Inhabited

structure Code where
  registers : Nat
  ins : Nat
  instructions : List Instruction
  tries : List TryRange
  deriving DecidableEq, Repr, Inhabited

def TryRange.covers (t : TryRange) (index : Nat) : Bool := t.start ≤ index && index < t.stop

namespace Code

def instructionCount (code : Code) : Nat := code.instructions.countP Instruction.isCounted

def handlersAt (code : Code) (index : Nat) : List Handler :=
  ((code.tries.find? (·.covers index)).map TryRange.handlers).getD []

def strings (code : Code) : List String := code.instructions.filterMap Instruction.string?

/-- The greater of two optional texts, where any text exceeds none. -/
def higher (best : Option String) (s : String) : Option String :=
  match best with
  | none => some s
  | some b => if b < s then some s else some b

def highestString? (code : Code) : Option String := code.strings.foldl higher none

def invokes (code : Code) : List (Nat × InvokeKind × MethodId) :=
  code.instructions.zipIdx.filterMap fun
    | (.invoke kind method _, index) => some (index, kind, method)
    | _ => none

/-! ## Text -/

def padLeft (width : Nat) (s : String) : String :=
  String.ofList (List.replicate (width - s.length) ' ') ++ s

def handlerText (h : Handler) : String :=
  match h.guard with
  | some guard => s!" catch {guard} @{h.target}"
  | none => s!" catch-all @{h.target}"

def tryText (t : TryRange) : String :=
  s!"try @{t.start}..@{t.stop}" ++ "".intercalate (t.handlers.map handlerText) ++ "\n"

def lineText (i : Instruction) (index : Nat) : String := padLeft 4 (toString index) ++ s!": {i}\n"

def text (code : Code) : String :=
  s!"registers: {code.registers}, ins: {code.ins}\n"
    ++ "".intercalate (code.instructions.zipIdx.map fun (i, index) => lineText i index)
    ++ "".intercalate (code.tries.map tryText)

instance : ToString Code := ⟨text⟩

end Code

end BytecodeOpt
