import BytecodeOpt.CallGraph
import BytecodeOpt.Inliner
import BytecodeOpt.Pass.Change
import BytecodeOpt.Ssa.Lift

/-!
# Inlining

Replaces calls of small methods that have been processed by their bodies.  A callee that has not
been processed, or a call set aside to break a cycle, is noted for a second visit.
-/

namespace BytecodeOpt.Pass.Inlining

open Ssa

/-! ## Bodies without branches -/

structure StraightBody where
  ops : List Op
  returned : Option Operand
  deriving DecidableEq, Repr, Inhabited

inductive Exit where
  | next (block : BlockId)
  | return (value : Option Operand)
  | stuck
  deriving DecidableEq, Repr, Inhabited

def straightOps : List Op → List Op × Exit
  | [] => ([], .stuck)
  | .goto target :: _ => ([], .next target)
  | .ret value :: _ => ([], .return value)
  | .line _ :: rest => straightOps rest
  | .moveException _ :: _ => ([], .stuck)
  | op :: rest =>
    if op.isTerminator then ([], .stuck)
    else
      let (ops, exit) := straightOps rest
      (op :: ops, exit)

def straightFrom? (body : Body) : Nat → BlockId → Option StraightBody
  | 0, _ => none
  | blocks + 1, b =>
    let block := body.block b
    if block.phis.isEmpty && block.handlers.isEmpty then
      let (ops, exit) := straightOps block.ops
      match exit with
      | .next target =>
        (straightFrom? body blocks target).map fun rest => { rest with ops := ops ++ rest.ops }
      | .return returned => some { ops, returned }
      | .stuck => none
    else none

def straight? (body : Body) : Option StraightBody := straightFrom? body body.blockCount 0

/-! ## Copying a body -/

abbrev ValueMap := List (Operand × Operand)

def argumentMap? (callee : Body) (args : List Operand) : Option ValueMap :=
  callee.ops.foldlM (fun map (_, op) =>
    match op with
    | .argument dest index => args[index]?.map fun arg => (dest, arg) :: map
    | _ => some map) []

/-- Copies operations into the caller, giving each result a new value there.  Values taken for a
copy that fails half way stay taken. -/
def copyOps (callee : Body) : List Op → ValueMap → Body → Body × Option (List Op × ValueMap)
  | [], map, body => (body, some ([], map))
  | .argument .. :: rest, map, body => copyOps callee rest map body
  | op :: rest, map, body =>
    if op.uses.all fun v => (map.lookup v).isSome then
      let read := op.mapUses fun v => (map.lookup v).getD v
      match op.dest? with
      | none =>
        let (body, result) := copyOps callee rest map body
        (body, result.map fun (ops, map) => (read :: ops, map))
      | some dest =>
        let fresh := body.valueCount
        let (body, result) :=
          copyOps callee rest ((dest, fresh) :: map) (body.addValue (callee.valueType dest))
        (body, result.map fun (ops, map) => (read.mapDest (fun _ => fresh) :: ops, map))
    else (body, none)

def copy (caller callee : Body) (straight : StraightBody) (args : List Operand) :
    Body × Option (List Op × Option Operand) :=
  match argumentMap? callee args with
  | none => (caller, none)
  | some map =>
    let (caller, result) := copyOps callee straight.ops map caller
    (caller, result.bind fun (ops, map) =>
      match straight.returned with
      | none => some (ops, none)
      | some value => (map.lookup value).map fun v => (ops, some v))

/-! ## Going through a method -/

structure Setting where
  program : Program
  caller : Method
  inliner : Inliner
  callGraph : Option CallGraph := none

structure Progress where
  body : Body
  events : List Event := []
  inlined : List MethodId := []
  waiting : List MethodId := []
  used : Nat := 0
  /-- Set when the code of a callee cannot be lifted; nothing is done after that. -/
  fault : Option (MethodId × LiftFault) := none
  deriving Repr, Inhabited

/-- An object that was just created, or the receiver of the method, is not null. -/
def mayBeNull (body : Body) (caller : Method) (receiver : Operand) : Bool :=
  match (body.ops.find? fun (_, op) => op.dest? = some receiver).map Prod.snd with
  | some (.argument _ 0) => caller.flags.isStatic
  | some (.newInstance ..) => false
  | _ => true

def receiverCheck (body : Body) (caller callee : Method) (kind : InvokeKind)
    (args : List Operand) : List Op :=
  match args with
  | receiver :: _ =>
    if kind.hasReceiver && !callee.flags.isStatic && mayBeNull body caller receiver then
      [.nullCheck receiver]
    else []
  | [] => []

def isBroken (s : Setting) (target : MethodId) : Bool :=
  s.callGraph.any (·.isBroken s.caller.id target)

def mustWait (s : Setting) (callee : Method) : Bool :=
  !s.inliner.widens callee.id && (!callee.isProcessed || isBroken s callee.id)

def wait (s : Setting) (p : Progress) (index : Nat) (target : MethodId) : Progress :=
  if s.inliner.isRevisit || p.waiting.contains target then p
  else
    { p with
      waiting := p.waiting ++ [target]
      events := p.events
        ++ [eventAt .doubleInlineRequested s.caller.id index s!"waiting for {target}" "inlining"] }

def isAllowed (s : Setting) (callee : Method) : Bool :=
  callee.processed.any (·.allows callee.id.holder s.caller.id.holder) && callee.isSimple

def callee? (s : Setting) (kind : InvokeKind) (method : MethodId) : Option Method := do
  let target ← s.program.singleTarget? kind method
  let callee ← s.program.method? target
  guard (target ≠ s.caller.id && callee.code.isSome)
  return callee

/-- Puts the body of a callee in place of the call at an index; returns how many operations now
stand there. -/
def replaceCall (s : Setting) (p : Progress) (b : BlockId) (index : Nat) (kind : InvokeKind)
    (args : List Operand) (dest : Option Operand) (callee : Method) (calleeBody : Body)
    (straight : StraightBody) : Progress × Nat :=
  match copy p.body calleeBody straight args with
  | (body, none) => ({ p with body }, 1)
  | (body, some (ops, returned)) =>
    let inlined := receiverCheck body s.caller callee kind args ++ ops
    let spliced := body.modifyBlock b fun block =>
      { block with ops := block.ops.take index ++ inlined ++ block.ops.drop (index + 1) }
    let renamed := match dest, returned with
      | some dest, some value => spliced.replaceUses dest value
      | _, _ => spliced
    ({ p with
        body := renamed
        events := p.events
          ++ [eventAt .methodInlined s.caller.id index callee.id.text "inlining"]
        inlined := p.inlined ++ [callee.id]
        used := p.used + straight.ops.length }, inlined.length)

def inlineCall (s : Setting) (p : Progress) (b : BlockId) (index : Nat) (kind : InvokeKind)
    (args : List Operand) (dest : Option Operand) (callee : Method) : Progress × Nat :=
  if mustWait s callee then (wait s p index callee.id, 1)
  else if !isAllowed s callee then (p, 1)
  else
    match lift? callee with
    | .error fault => ({ p with fault := some (callee.id, fault) }, 1)
    | .ok none => (p, 1)
    | .ok (some calleeBody) =>
      match straight? calleeBody with
      | none => (p, 1)
      | some straight =>
        if s.inliner.budgetFor callee.id < p.used + straight.ops.length then (p, 1)
        else replaceCall s p b index kind args dest callee calleeBody straight

/-- Looks at one operation; returns how many operations now stand in its place. -/
def inlineAt (s : Setting) (p : Progress) (b : BlockId) (index : Nat) : Progress × Nat :=
  match (p.body.block b).ops[index]? with
  | some (.invoke kind method args dest) =>
    match callee? s kind method with
    | some callee => inlineCall s p b index kind args dest callee
    | none => (p, 1)
  | _ => (p, 1)

def inlineFrom (s : Setting) (b : BlockId) : Nat → Nat → Progress → Progress
  | 0, _, p => p
  | count + 1, index, p =>
    if p.fault.isSome then p
    else
      let (p, width) := inlineAt s p b index
      inlineFrom s b count (index + width) p

def inlineBlock (s : Setting) (p : Progress) (b : BlockId) : Progress :=
  let block := p.body.block b
  if block.handlers.isEmpty then inlineFrom s b block.ops.length 0 p else p

def run (s : Setting) (waiting : List MethodId) (body : Body) : Progress :=
  body.blockIds.foldl (inlineBlock s) { body, waiting }

end BytecodeOpt.Pass.Inlining
