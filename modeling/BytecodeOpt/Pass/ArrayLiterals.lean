import BytecodeOpt.Pass.Change

/-!
# Array literals

A small new array whose elements are all stored one by one becomes a filled array, if nothing looks
at the array before the last store.
-/

namespace BytecodeOpt.Pass.ArrayLiterals

open Ssa

def maxSize : Nat := 5

def isFillable (arrayType : TypeName) : Bool :=
  arrayType.element?.any fun element => element = .int || !element.isPrimitive

structure Store where
  slot : Nat
  index : Nat
  value : Operand
  deriving DecidableEq, Repr, Inhabited

def intConstant? (constants : Array (Option Constant)) (v : Operand) : Option Int :=
  (constants.getD v none).bind Constant.toInt?

def slot? (constants : Array (Option Constant)) (size : Nat) (index : Operand) : Option Nat :=
  (intConstant? constants index).bind fun i =>
    if 0 ≤ i ∧ i < size then some i.toNat else none

def stores? (constants : Array (Option Constant)) (array : Operand) (size : Nat) :
    List Op → Nat → List Store → Option (List Store)
  | [], _, stores => if stores.length = size then some stores else none
  | op :: rest, index, stores =>
    if stores.length = size then some stores
    else
      let other :=
        if op.isTerminator || op.uses.contains array then none
        else stores? constants array size rest (index + 1) stores
      match op with
      | .arrayPut value target element _ =>
        if target = array && value ≠ array then
          match slot? constants size element with
          | some slot =>
            if stores.any (·.slot = slot) then none
            else stores? constants array size rest (index + 1) (stores ++ [⟨slot, index, value⟩])
          | none => none
        else other
      | _ => other

structure Literal where
  start : Nat
  dest : Operand
  type : TypeName
  stores : List Store
  deriving DecidableEq, Repr, Inhabited

namespace Literal

def elements (l : Literal) : List Operand :=
  (List.range l.stores.length).filterMap fun slot =>
    (l.stores.find? (·.slot = slot)).map Store.value

def last (l : Literal) : Nat := l.stores.foldl (fun last s => max last s.index) l.start

def apply (l : Literal) (ops : List Op) : List Op :=
  let dropped := l.start :: (l.stores.map Store.index).filter (· ≠ l.last)
  (ops.zipIdx.filter fun (_, i) => !dropped.contains i).map fun (op, i) =>
    if i = l.last then .filledNewArray (some l.dest) l.type l.elements else op

end Literal

def literalFrom? (constants : Array (Option Constant)) (start : Nat) (rest : List Op) :
    Op → Option Literal
  | .newArray dest size type => do
    let n ← intConstant? constants size
    guard (1 ≤ n ∧ n ≤ maxSize ∧ isFillable type)
    let stores ← stores? constants dest n.toNat rest (start + 1) []
    return { start, dest, type, stores }
  | _ => none

def findLiteral? (constants : Array (Option Constant)) : List Op → Nat → Option Literal
  | [], _ => none
  | op :: rest, start =>
    match literalFrom? constants start rest op with
    | some literal => some literal
    | none => findLiteral? constants rest (start + 1)

/-- Replaces literals until none is left; each makes the operations fewer. -/
def replaceLiterals (constants : Array (Option Constant)) :
    Nat → List Op → List Literal → List Op × List Literal
  | 0, ops, found => (ops, found)
  | fuel + 1, ops, found =>
    match findLiteral? constants ops 0 with
    | some literal => replaceLiterals constants fuel (literal.apply ops) (found ++ [literal])
    | none => (ops, found)

def replaceInBlock (constants : Array (Option Constant)) (b : Block) : Block × List Literal :=
  if b.handlers.isEmpty then
    let (ops, found) := replaceLiterals constants b.ops.length b.ops []
    ({ b with ops }, found)
  else (b, [])

def run (method : MethodId) (body : Body) : Change :=
  let results := body.blocks.map (replaceInBlock body.constants)
  let found := results.toList.flatMap Prod.snd
  { body := { body with blocks := results.map Prod.fst }
    events := found.map fun l =>
      eventAt .arrayConstructed method l.start s!"filled-new-array {l.type}" "arrays"
    changed := !found.isEmpty }

end BytecodeOpt.Pass.ArrayLiterals
