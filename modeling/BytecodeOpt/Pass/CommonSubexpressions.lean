import BytecodeOpt.Pass.Change

/-!
# Common subexpressions

A pure operation that a dominating operation has already computed is dropped, and its result
replaced by the earlier one.
-/

namespace BytecodeOpt.Pass.CommonSubexpressions

open Ssa

inductive Expression where
  | binary (op : BinaryOp) (type : NumericType) (left right : Operand)
  | unary (op : UnaryOp) (source : Operand)
  | instanceOf (value : Operand) (type : TypeName)
  deriving DecidableEq, Repr, Inhabited

def expression? (resolve : Operand → Operand) : Op → Option Expression
  | .binary op type _ left right =>
    let l := resolve left
    let r := resolve right
    if op.canThrow then none
    else if op.isCommutative && r < l then some (.binary op type r l)
    else some (.binary op type l r)
  | .unary op _ source => some (.unary op (resolve source))
  | .instanceOf _ value type => some (.instanceOf (resolve value) type)
  | _ => none

structure Found where
  replaced : Renaming := {}
  removed : List (BlockId × Nat) := []
  deriving Repr, Inhabited

def Found.resolve (f : Found) (v : Operand) : Operand := (f.replaced.get? v).getD v

abbrev Available := List (Expression × Operand)

def scan (b : BlockId) : List Op → Nat → Available → Found → Available × Found
  | [], _, available, found => (available, found)
  | op :: rest, index, available, found =>
    match expression? found.resolve op, op.dest? with
    | some expression, some dest =>
      match available.lookup expression with
      | some existing =>
        scan b rest (index + 1) available
          { replaced := found.replaced.insert dest existing
            removed := found.removed ++ [(b, index)] }
      | none => scan b rest (index + 1) ((expression, dest) :: available) found
    | _, _ => scan b rest (index + 1) available found

/-- Goes down the dominator tree; what a block computes is available below it.  The tree is no
deeper than it has blocks. -/
def walk (body : Body) (children : Array (List BlockId)) :
    Nat → Available → Found → BlockId → Found
  | 0, _, found, _ => found
  | depth + 1, available, found, b =>
    let (available, found) := scan b (body.block b).ops 0 available found
    (children.getD b []).foldl (walk body children depth available) found

def run (method : MethodId) (body : Body) : Change :=
  let children := body.dominators.tree
  let found := walk body children body.blockCount [] {} 0
  if found.removed.isEmpty then .unchanged body
  else
    let kept := (found.removed.reverse).foldl (fun body (b, index) =>
      body.modifyBlock b fun block => { block with ops := block.ops.eraseIdx index }) body
    { body := kept.rename found.replaced
      events := found.removed.reverse.map fun (b, index) =>
        eventAt .subexpressionEliminated method index
          (((body.block b).ops[index]?.map Op.text).getD "") "cse"
      changed := true }

end BytecodeOpt.Pass.CommonSubexpressions
