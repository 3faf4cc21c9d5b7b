import BytecodeOpt.Ssa.Body

/-!
# The SSA check

What a body in SSA form promises: the edges agree with the predecessor lists, every block ends in
its only terminator and throws only at its end if it has handlers, every value has one definition,
and every definition dominates the uses of its value.
-/

namespace BytecodeOpt.Ssa

inductive Violation where
  | entryHasPreds
  | unreachable (block : BlockId)
  | noTerminator (block : BlockId)
  | innerTerminator (block : BlockId)
  | misplacedArgument (block : BlockId)
  | misplacedException (block : BlockId)
  | throwsBeforeEnd (block : BlockId)
  | duplicatePred (block pred : BlockId)
  | predWithoutEdge (block pred : BlockId)
  | edgeWithoutPred (source target : BlockId)
  | phiArity (phi : Operand) (block : BlockId) (operands preds : Nat)
  | unknownValue (value : Operand)
  | definedTwice (value : Operand)
  | neverDefined (value : Operand) (block : BlockId)
  | notDominated (value : Operand) (block : BlockId)
  deriving DecidableEq, Repr, Inhabited

def Violation.message : Violation → String
  | .entryHasPreds => "entry block has predecessors"
  | .unreachable b => s!"block B{b} is unreachable"
  | .noTerminator b => s!"block B{b} has no terminator"
  | .innerTerminator b => s!"terminator in the middle of block B{b}"
  | .misplacedArgument b => s!"misplaced argument in B{b}"
  | .misplacedException b => s!"move-exception in B{b} is not at the start of a handler"
  | .throwsBeforeEnd b => s!"block B{b} with catch handlers throws before its end"
  | .duplicatePred b p => s!"duplicate predecessor B{p} of B{b}"
  | .predWithoutEdge b p => s!"B{b} lists B{p} as predecessor without an edge"
  | .edgeWithoutPred b s => s!"edge B{b} -> B{s} missing from predecessors"
  | .phiArity v b operands preds =>
    s!"phi v{v} in B{b} has {operands} operands for {preds} predecessors"
  | .unknownValue v => s!"unknown value v{v}"
  | .definedTwice v => s!"v{v} defined twice"
  | .neverDefined v b => s!"v{v} used in B{b} but never defined"
  | .notDominated v b => s!"use of v{v} in B{b} is not dominated by its definition"

namespace Body

def require (condition : Bool) (violation : Violation) : Except Violation Unit :=
  if condition then .ok () else .error violation

def isHandlerEntry (body : Body) (b : BlockId) : Bool :=
  !(body.block b).preds.isEmpty
    && (body.block b).preds.all fun p => (body.block p).isExceptionalSuccessor b

/-- The operation may stand at position `i`: terminators at the end, arguments first in the entry, a
caught exception first in a handler. -/
def checkPlacement (body : Body) (b : BlockId) (op : Op) (i : Nat) : Except Violation Unit := do
  let block := body.block b
  require (!op.isTerminator || i + 1 == block.ops.length) (.innerTerminator b)
  require (!op.isArgument || (b == 0 && (block.ops.take i).all Op.isArgument))
    (.misplacedArgument b)
  require (!op.isMoveException || (i == 0 && body.isHandlerEntry b)) (.misplacedException b)

/-- With handlers, a block throws at most once, in its last or last but one operation. -/
def throwsAtEnd (block : Block) : Bool :=
  block.handlers.isEmpty ||
    match block.ops.findIdx? Op.canThrow with
    | none => true
    | some i => block.ops.countP Op.canThrow == 1
        && (i + 1 == block.ops.length || i + 2 == block.ops.length)

def hasEdge (body : Body) (source target : BlockId) : Bool :=
  source < body.blockCount && (body.block source).successors.contains target

def checkPreds (body : Body) (b : BlockId) : List BlockId → List BlockId → Except Violation Unit
  | _, [] => .ok ()
  | seen, p :: rest => do
    require (!seen.contains p) (.duplicatePred b p)
    require (body.hasEdge p b) (.predWithoutEdge b p)
    checkPreds body b (p :: seen) rest

def checkSuccessor (body : Body) (b s : BlockId) : Except Violation Unit :=
  require (s < body.blockCount && (body.block s).preds.contains b) (.edgeWithoutPred b s)

def checkArity (block : Block) (b : BlockId) (phi : Phi) : Except Violation Unit :=
  require (phi.operands.length == block.preds.length)
    (.phiArity phi.dest b phi.operands.length block.preds.length)

def checkBlock (body : Body) (doms : Dominators) (b : BlockId) : Except Violation Unit := do
  let block := body.block b
  require (doms.isReachable b) (.unreachable b)
  require block.terminator?.isSome (.noTerminator b)
  block.ops.zipIdx.forM fun (op, i) => body.checkPlacement b op i
  require (throwsAtEnd block) (.throwsBeforeEnd b)
  body.checkPreds b [] block.preds
  block.successors.forM (body.checkSuccessor b)
  block.phis.forM (checkArity block b)

def define (defs : Array (Option DefSite)) (v : Operand) (site : DefSite) :
    Except Violation (Array (Option DefSite)) :=
  match defs[v]? with
  | none => .error (.unknownValue v)
  | some (some _) => .error (.definedTwice v)
  | some none => .ok (defs.setIfInBounds v (some site))

def isDefinedBefore (doms : Dominators) (b : BlockId) (i : Nat) : DefSite → Bool
  | .phi d => doms.dominates d b
  | .op d j => if d = b then j < i else doms.dominates d b

def checkUse (defs : Array (Option DefSite)) (doms : Dominators) (b : BlockId) (i : Nat)
    (v : Operand) : Except Violation Unit :=
  match defs.getD v none with
  | none => .error (.neverDefined v b)
  | some site => require (isDefinedBefore doms b i site) (.notDominated v b)

/-- The position in `pred` where control leaves it towards `b`: at its throwing operation on an
exceptional edge, at its end otherwise. -/
def exitPosition (body : Body) (pred b : BlockId) : Nat :=
  let block := body.block pred
  if block.isExceptionalSuccessor b then block.throwingIndex?.getD block.ops.length
  else block.ops.length

def checkPhiUses (body : Body) (defs : Array (Option DefSite)) (doms : Dominators) (b : BlockId)
    (phi : Phi) : Except Violation Unit :=
  (phi.operands.zip (body.block b).preds).forM fun (v, pred) =>
    checkUse defs doms pred (body.exitPosition pred b) v

def checkBlockUses (body : Body) (defs : Array (Option DefSite)) (doms : Dominators)
    (b : BlockId) : Except Violation Unit := do
  (body.block b).phis.forM (body.checkPhiUses defs doms b)
  (body.block b).ops.zipIdx.forM fun (op, i) => op.uses.forM (checkUse defs doms b i)

def check (body : Body) : Except Violation Unit := do
  require (body.block 0).preds.isEmpty .entryHasPreds
  let doms := body.dominators
  body.blockIds.forM (body.checkBlock doms)
  let defs ← body.allDefinitions.foldlM (fun defs (v, site) => define defs v site)
    (Array.replicate body.valueCount none)
  body.blockIds.forM (body.checkBlockUses defs doms)

end Body

end BytecodeOpt.Ssa
