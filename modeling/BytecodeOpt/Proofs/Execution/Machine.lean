import BytecodeOpt.Proofs.Execution.Lockstep
import BytecodeOpt.Proofs.Ssa.Definedness

/-!
# Running code

Register code and code in blocks run on one machine.  An instruction or an operation has an effect:
it moves a value, has an action performed on values, or decides where control goes.  What the
actions do to the world outside is left to a host, so whatever is proved holds for every meaning
they may have.

What is seen of a run are the actions with the values they get and give, the decisions of branches,
the exceptions that are caught, and how the run ends.
-/

namespace BytecodeOpt

namespace Execution

/-! ## Actions and effects -/

/-- What is done to values, apart from where they come from and where the result goes. -/
inductive Action where
  | const (value : Constant)
  | binary (op : BinaryOp) (type : NumericType)
  | unary (op : UnaryOp)
  | invoke (kind : InvokeKind) (method : MethodId)
  | invokeCustom (site : CallSite)
  | newInstance (type : TypeName)
  | newArray (type : TypeName)
  | filledNewArray (type : TypeName)
  | arrayGet (type : ValueType)
  | arrayPut (type : ValueType)
  | arrayLength
  | instanceGet (field : FieldId)
  | instancePut (field : FieldId)
  | staticGet (field : FieldId)
  | staticPut (field : FieldId)
  | checkCast (type : TypeName)
  | instanceOf (type : TypeName)
  | nullCheck
  | throw
  deriving DecidableEq, Repr

def Action.canThrow : Action → Bool
  | .const value => value.isType
  | .binary op _ => op.canThrow
  | .unary _ | .instanceOf _ => false
  | _ => true

/-- What an instruction or an operation does.  Operands are registers or values, targets are
instruction indices or blocks. -/
inductive Effect where
  | skip
  | line (number : Nat)
  | argument (dest index : Nat)
  | copy (dest source : Nat)
  | result (dest : Nat)
  | caught (dest : Nat)
  | act (action : Action) (operands : List Nat) (dest : Option Nat)
  | goto (target : Nat)
  | branch (cond : Condition) (left : Nat) (right : Option Nat) (onTrue onFalse : Nat)
  | switch (value : Nat) (keys : List Int) (targets : List Nat) (default : Nat)
  | ret (value : Option Nat)
  deriving DecidableEq, Repr

namespace Effect

def dest? : Effect → Option Nat
  | .argument dest _ | .copy dest _ | .result dest | .caught dest => some dest
  | .act _ _ dest => dest
  | _ => none

def operands : Effect → List Nat
  | .copy _ source => [source]
  | .act _ operands _ => operands
  | .branch _ left right _ _ => left :: right.toList
  | .switch value .. => [value]
  | .ret value => value.toList
  | _ => []

def targets : Effect → List Nat
  | .goto target => [target]
  | .branch _ _ _ onTrue onFalse => [onTrue, onFalse]
  | .switch _ _ targets default => targets ++ [default]
  | _ => []

def leaves : Effect → Bool
  | .goto _ | .branch .. | .switch .. | .ret _ | .act .throw _ _ => true
  | _ => false

def canThrow : Effect → Bool
  | .act action _ _ => action.canThrow
  | _ => false

end Effect

end Execution

open Execution

def Instruction.effect (index : Nat) : Instruction → Effect
  | .nop => .skip
  | .line number => .line number
  | .const dest value => .act (.const value) [] dest
  | .constString dest value _ => .act (.const (.string value)) [] dest
  | .move dest source => .copy dest source
  | .moveResult dest => .result dest
  | .moveException dest => .caught dest
  | .binary op type dest left right => .act (.binary op type) [left, right] dest
  | .unary op dest source => .act (.unary op) [source] dest
  | .goto target => .goto target
  | .branch cond left right target => .branch cond left right target (index + 1)
  | .switch value keys targets => .switch value keys targets (index + 1)
  | .ret value => .ret value
  | .throw value => .act .throw [value] none
  | .invoke kind method args => .act (.invoke kind method) args none
  | .invokeCustom site args => .act (.invokeCustom site) args none
  | .newInstance dest type => .act (.newInstance type) [] dest
  | .newArray dest size type => .act (.newArray type) [size] dest
  | .filledNewArray type args => .act (.filledNewArray type) args none
  | .arrayGet dest array index type => .act (.arrayGet type) [array, index] dest
  | .arrayPut value array index type => .act (.arrayPut type) [value, array, index] none
  | .arrayLength dest array => .act .arrayLength [array] dest
  | .instanceGet dest object field => .act (.instanceGet field) [object] dest
  | .instancePut value object field => .act (.instancePut field) [value, object] none
  | .staticGet dest field => .act (.staticGet field) [] dest
  | .staticPut value field => .act (.staticPut field) [value] none
  | .checkCast value type => .act (.checkCast type) [value] value
  | .instanceOf dest value type => .act (.instanceOf type) [value] dest

def Op.effect : Op → Effect
  | .argument dest index => .argument dest index
  | .const dest value => .act (.const value) [] dest
  | .move dest source => .copy dest source
  | .moveException dest => .caught dest
  | .binary op type dest left right => .act (.binary op type) [left, right] dest
  | .unary op dest source => .act (.unary op) [source] dest
  | .invoke kind method args dest => .act (.invoke kind method) args dest
  | .invokeCustom site args dest => .act (.invokeCustom site) args dest
  | .newInstance dest type => .act (.newInstance type) [] dest
  | .newArray dest size type => .act (.newArray type) [size] dest
  | .filledNewArray dest type args => .act (.filledNewArray type) args dest
  | .arrayGet dest array index type => .act (.arrayGet type) [array, index] dest
  | .arrayPut value array index type => .act (.arrayPut type) [value, array, index] none
  | .arrayLength dest array => .act .arrayLength [array] dest
  | .instanceGet dest object field => .act (.instanceGet field) [object] dest
  | .instancePut value object field => .act (.instancePut field) [value, object] none
  | .staticGet dest field => .act (.staticGet field) [] dest
  | .staticPut value field => .act (.staticPut field) [value] none
  | .checkCast dest value type => .act (.checkCast type) [value] dest
  | .instanceOf dest value type => .act (.instanceOf type) [value] dest
  | .nullCheck value => .act .nullCheck [value] none
  | .line number => .line number
  | .goto target => .goto target
  | .branch cond left right onTrue onFalse => .branch cond left right onTrue onFalse
  | .switch value keys targets default => .switch value keys targets default
  | .ret value => .ret value
  | .throw value => .act .throw [value] none

namespace Instruction

@[simp] theorem leaves_effect (index : Nat) (i : Instruction) :
    (i.effect index).leaves = i.isBranch := by
  cases i <;> rfl

@[simp] theorem canThrow_effect (index : Nat) (i : Instruction) :
    (i.effect index).canThrow = i.canThrow := by
  cases i <;> rfl

theorem targets_effect (index : Nat) (i : Instruction) :
    (i.effect index).targets =
      i.targets ++ if i.isBranch && !i.endsFlow then [index + 1] else [] := by
  cases i <;> rfl

end Instruction

namespace Op

@[simp] theorem dest?_effect (op : Op) : op.effect.dest? = op.dest? := by
  cases op <;> rfl

@[simp] theorem operands_effect (op : Op) : op.effect.operands = op.uses := by
  cases op <;> rfl

@[simp] theorem targets_effect (op : Op) : op.effect.targets = op.targets := by
  cases op <;> rfl

@[simp] theorem leaves_effect (op : Op) : op.effect.leaves = op.isTerminator := by
  cases op <;> rfl

@[simp] theorem canThrow_effect (op : Op) : op.effect.canThrow = op.canThrow := by
  cases op <;> rfl

end Op

namespace Execution

/-! ## The host -/

/-- How an action ends.  Where there is nothing to give, the value is one that nobody reads. -/
inductive Outcome (V : Type) where
  | completes (value : V)
  | raises (exception : V)

/-- What code runs on: the meaning of the actions in a world outside, and of the tests on values. -/
structure Host (V W : Type) where
  /-- In a world, an action on values can end in this way and leave this world behind. -/
  performs : W → Action → List V → Outcome V → W → Prop
  holds : Condition → V → Option V → Bool
  isKey : V → Int → Bool
  isInstance : V → TypeName → Bool

variable {V W L : Type}

def Host.accepts (host : Host V W) (exception : V) (h : Handler) : Bool :=
  h.guard.all (host.isInstance exception)

inductive Observation (V : Type) where
  | line (number : Nat)
  | performed (action : Action) (args : List V) (outcome : Outcome V)
  | branched (cond : Condition) (left : V) (right : Option V) (taken : Bool)
  | switched (value : V) (key : Option Nat)
  | caught (guard : Option TypeName) (exception : V)
  | returned (value : Option V)
  | escaped (exception : V)

/-- What a run keeps: a value for every operand, the result that had nowhere to go, and the
exception that was caught last. -/
structure Memory (V : Type) where
  store : Nat → V
  result : V
  caught : V

inductive Exit (V : Type) where
  | next (value : Option V)
  | jump (target : Nat)
  | raise (exception : V)
  | halt

/-- What an effect does in a world and a memory: what is seen of it, the world it leaves and where
control goes. -/
inductive Effect.Runs (host : Host V W) (args : Nat → V) (w : W) (m : Memory V) :
    Effect → List (Observation V) → W → Exit V → Prop where
  | skip : Runs host args w m .skip [] w (.next none)
  | line {number : Nat} : Runs host args w m (.line number) [.line number] w (.next none)
  | argument {dest index : Nat} :
      Runs host args w m (.argument dest index) [] w (.next (some (args index)))
  | copy {dest source : Nat} :
      Runs host args w m (.copy dest source) [] w (.next (some (m.store source)))
  | result {dest : Nat} : Runs host args w m (.result dest) [] w (.next (some m.result))
  | caught {dest : Nat} : Runs host args w m (.caught dest) [] w (.next (some m.caught))
  | completes {action : Action} {operands : List Nat} {dest : Option Nat} {value : V} {w' : W} :
      action ≠ .throw → host.performs w action (operands.map m.store) (.completes value) w' →
      Runs host args w m (.act action operands dest)
        [.performed action (operands.map m.store) (.completes value)] w' (.next (some value))
  | raises {action : Action} {operands : List Nat} {dest : Option Nat} {exception : V} {w' : W} :
      action.canThrow = true →
      host.performs w action (operands.map m.store) (.raises exception) w' →
      Runs host args w m (.act action operands dest)
        [.performed action (operands.map m.store) (.raises exception)] w' (.raise exception)
  | goto {target : Nat} : Runs host args w m (.goto target) [] w (.jump target)
  | branch {cond : Condition} {left : Nat} {right : Option Nat} {onTrue onFalse : Nat}
      {taken : Bool} :
      taken = host.holds cond (m.store left) (right.map m.store) →
      Runs host args w m (.branch cond left right onTrue onFalse)
        [.branched cond (m.store left) (right.map m.store) taken] w
        (.jump (if taken then onTrue else onFalse))
  | switch {value : Nat} {keys : List Int} {targets : List Nat} {default : Nat} {key : Option Nat} :
      key = keys.findIdx? (host.isKey (m.store value)) →
      Runs host args w m (.switch value keys targets default) [.switched (m.store value) key] w
        (.jump ((key.bind (targets[·]?)).getD default))
  | ret {value : Option Nat} :
      Runs host args w m (.ret value) [.returned (value.map m.store)] w .halt

/-- The memory after an effect gave a value: it goes to the destination, or else waits to be picked
up. -/
def Memory.after (m : Memory V) (e : Effect) : Option V → Memory V
  | none => m
  | some value =>
    match e.dest? with
    | some dest => { m with store := Function.update m.store dest value }
    | none => { m with result := value }

namespace Memory

variable (m : Memory V)
include m

@[simp] theorem caught_after (e : Effect) (value : Option V) :
    (m.after e value).caught = m.caught := by
  cases value with
  | none => rfl
  | some value =>
    rw [after]
    split <;> rfl

theorem after_of_dest {e : Effect} {dest : Nat} (h : e.dest? = some dest) (value : V) :
    m.after e (some value) = { m with store := Function.update m.store dest value } := by
  simp only [after, h]

theorem after_of_no_dest {e : Effect} (h : e.dest? = none) (value : V) :
    m.after e (some value) = { m with result := value } := by
  simp only [after, h]

theorem store_after_of_no_dest {e : Effect} (h : e.dest? = none) (value : Option V) :
    (m.after e value).store = m.store := by
  cases value with
  | none => rfl
  | some value => rw [after_of_no_dest m h]

theorem after_congr {e e' : Effect} (h : e'.dest? = e.dest?) (value : Option V) :
    m.after e' value = m.after e value := by
  cases value <;> simp only [after, h]

theorem store_after_self {e : Effect} {v : Nat} (h : e.dest? = some v) (value : V) :
    (m.after e (some value)).store v = value := by
  rw [m.after_of_dest h]
  exact Function.update_self ..

theorem store_after_of_ne {e : Effect} {v : Nat} (h : e.dest? ≠ some v) (value : Option V) :
    (m.after e value).store v = m.store v := by
  cases value with
  | none => rfl
  | some value =>
    cases hd : e.dest? with
    | none => rw [m.store_after_of_no_dest hd]
    | some x =>
      have hvx : v ≠ x := fun hx => h (hx ▸ hd)
      rw [m.after_of_dest hd]
      exact Function.update_of_ne hvx ..

end Memory

theorem Memory.store_after_eq {m m' : Memory V} {e e' : Effect}
    (hdest : e'.dest? = e.dest?) {v v' : Nat}
    (hv : m.store v = m'.store v') (hsame : v = v' ∨ (e.dest? ≠ some v ∧ e.dest? ≠ some v'))
    (value : Option V) : (m.after e value).store v = (m'.after e' value).store v' := by
  by_cases hd : e.dest? = some v ∧ value.isSome
  · obtain ⟨hd, hvalue⟩ := hd
    obtain ⟨value, rfl⟩ := Option.isSome_iff_exists.1 hvalue
    obtain rfl := hsame.resolve_right fun hne => hne.1 hd
    rw [m.store_after_self hd, m'.store_after_self (hdest.trans hd)]
  · cases value with
    | none => exact hv
    | some value =>
      have hne : e.dest? ≠ some v := fun heq => hd ⟨heq, rfl⟩
      have hne' : e'.dest? ≠ some v' := by grind
      rw [m.store_after_of_ne hne, m'.store_after_of_ne hne', hv]

/-! ## Routines -/

structure Routine (L : Type) where
  effect? : L → Option Effect
  handlers : L → List Handler
  next : L → L
  target : L → Nat → L
  /-- The operand that an operand takes its value from where control jumps; all do so at once. -/
  source : L → Nat → Nat → Nat

structure Config (L V W : Type) where
  place : L
  world : W
  memory : Memory V

namespace Routine

def enter (p : Routine L) (l : L) (target : Nat) (w : W) (m : Memory V) : Config L V W where
  place := p.target l target
  world := w
  memory := { m with store := fun v => m.store (p.source l target v) }

/-- One step of a run; a run that has ended has no state.  An exception leaves the memory as it
was. -/
inductive Step (p : Routine L) (host : Host V W) (args : Nat → V) :
    System (Option (Config L V W)) (Observation V) where
  | next {l : L} {w w' : W} {m : Memory V} {e : Effect} {seen : List (Observation V)}
      {value : Option V} :
      p.effect? l = some e → e.Runs host args w m seen w' (.next value) →
      Step p host args (some ⟨l, w, m⟩) seen (some ⟨p.next l, w', m.after e value⟩)
  | jump {l : L} {w w' : W} {m : Memory V} {e : Effect} {seen : List (Observation V)}
      {target : Nat} :
      p.effect? l = some e → e.Runs host args w m seen w' (.jump target) →
      Step p host args (some ⟨l, w, m⟩) seen (some (p.enter l target w' m))
  | caught {l : L} {w w' : W} {m : Memory V} {e : Effect} {seen : List (Observation V)}
      {exception : V}
      {h : Handler} :
      p.effect? l = some e → e.Runs host args w m seen w' (.raise exception) →
      (p.handlers l).find? (host.accepts exception) = some h →
      Step p host args (some ⟨l, w, m⟩) (seen ++ [.caught h.guard exception])
        (some (p.enter l h.target w' { m with caught := exception }))
  | escaped {l : L} {w w' : W} {m : Memory V} {e : Effect} {seen : List (Observation V)}
      {exception : V} :
      p.effect? l = some e → e.Runs host args w m seen w' (.raise exception) →
      (p.handlers l).find? (host.accepts exception) = none →
      Step p host args (some ⟨l, w, m⟩) (seen ++ [.escaped exception]) none
  | halt {l : L} {w w' : W} {m : Memory V} {e : Effect} {seen : List (Observation V)} :
      p.effect? l = some e → e.Runs host args w m seen w' .halt →
      Step p host args (some ⟨l, w, m⟩) seen none

end Routine

end Execution

def Code.routine (code : Code) : Routine Nat where
  effect? index := (code.instructions[index]?).map (Instruction.effect index)
  handlers := code.handlersAt
  next index := index + 1
  target _ index := index
  source _ _ reg := reg

namespace Ssa.Body

/-- The operand a value takes its content from on the way into a block: a phi picks by the edge, all
other values stay. -/
def picks (body : Body) (pred target : BlockId) (v : Operand) : Operand :=
  match (body.block target).phis.find? (·.dest == v) with
  | some phi => ((body.block target).incoming? pred phi).getD v
  | none => v

def routine (body : Body) : Routine (BlockId × Nat) where
  effect? l := ((body.block l.1).ops[l.2]?).map Op.effect
  handlers l := (body.block l.1).handlers
  next l := (l.1, l.2 + 1)
  target _ b := (b, 0)
  source l b := body.picks l.1 b

end Ssa.Body

end BytecodeOpt
