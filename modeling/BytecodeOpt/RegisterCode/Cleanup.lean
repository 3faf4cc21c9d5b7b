import BytecodeOpt.Event
import BytecodeOpt.Options
import BytecodeOpt.RegisterCode

/-!
# Cleanup of register code

Drops line markers, jumps to jumps, and moves and loads that change nothing.
-/

namespace BytecodeOpt.RegisterCode

def mapBlocks (code : RegisterCode) (f : RegisterBlock → RegisterBlock) : RegisterCode :=
  { code with blocks := code.blocks.map f }

def removeLines (code : RegisterCode) : RegisterCode × Nat :=
  (code.mapBlocks fun b => { b with ops := b.ops.filter fun op => !op.isLine },
    code.ops.countP Op.isLine)

/-! ## Jumps to jumps -/

def jumps (code : RegisterCode) : List (BlockId × BlockId) :=
  ((code.blocks.drop 1).filterMap fun b => b.gotoTarget?.map fun target => (b.id, target)).reverse

/-- Follows jumps to where they end; none if they have not ended after `steps`. -/
def follow? (jumps : List (BlockId × BlockId)) : Nat → BlockId → Option BlockId
  | 0, _ => none
  | steps + 1, b =>
    match jumps.lookup b with
    | some next => follow? jumps steps next
    | none => some b

def forward (jumps : List (BlockId × BlockId)) (b : BlockId) : BlockId :=
  (follow? jumps (jumps.length + 1) b).getD b

def forwardBlock (jumps : List (BlockId × BlockId)) (b : RegisterBlock) : RegisterBlock :=
  { b with
    ops := b.ops.dropLast ++ (b.ops.getLast?.map (Op.mapTargets (forward jumps))).toList
    handlers := b.handlers.map fun h => { h with target := forward jumps h.target } }

def successors (b : RegisterBlock) : List BlockId :=
  (b.terminator?.map Op.successors).getD [] ++ b.handlers.map Handler.target

def blockById? (code : RegisterCode) (id : BlockId) : Option RegisterBlock :=
  code.blocks.reverse.find? (·.id = id)

def reach (code : RegisterCode) : Nat → List BlockId → BlockId → List BlockId
  | 0, reached, _ => reached
  | depth + 1, reached, b =>
    if reached.contains b then reached
    else
      let next := ((code.blockById? b).map successors).getD []
      next.foldl (code.reach depth) (b :: reached)

def removeUnreachable (code : RegisterCode) : RegisterCode × Nat :=
  match code.blocks with
  | [] => (code, 0)
  | entry :: _ =>
    let reached := code.reach (code.blocks.length + 1) [] entry.id
    let kept := code.blocks.filter fun b => reached.contains b.id
    ({ code with blocks := kept }, code.blocks.length - kept.length)

/-- Lets branches and handlers skip blocks that only jump, drops the blocks nothing leads to any
more, and counts those. -/
def collapseJumps (code : RegisterCode) : RegisterCode × Nat :=
  let jumps := code.jumps
  if jumps.isEmpty then (code, 0) else (code.mapBlocks (forwardBlock jumps)).removeUnreachable

/-! ## Moves and loads that change nothing -/

structure Known where
  constants : List (Reg × Constant) := []
  copies : List (Reg × Reg) := []
  deriving DecidableEq, Repr, Inhabited

namespace Known

def clobber (k : Known) (r : Reg) : Known where
  constants := k.constants.filter (·.1 ≠ r)
  copies := k.copies.filter fun (dest, source) => dest ≠ r && source ≠ r

def areEqual (k : Known) (a b : Reg) : Bool :=
  k.copies.lookup a = some b || k.copies.lookup b = some a

def isRedundant (k : Known) : Op → Bool
  | .move dest source =>
    register dest = register source || k.areEqual (register dest) (register source)
  | .const dest value => k.constants.lookup (register dest) = some value
  | _ => false

def after (k : Known) : Op → Known
  | .move dest source =>
    let d := register dest
    let s := register source
    let rest := k.clobber d
    { constants := (k.constants.lookup s).toList.map (d, ·) ++ rest.constants
      copies := (d, s) :: rest.copies }
  | .const dest value =>
    let rest := k.clobber (register dest)
    { rest with constants := (register dest, value) :: rest.constants }
  | op =>
    match op.dest? with
    | some dest => k.clobber (register dest)
    | none => k

def filterOps : Known → List Op → List Op
  | _, [] => []
  | k, op :: rest =>
    if k.isRedundant op then filterOps k rest else op :: filterOps (k.after op) rest

end Known

def peephole (code : RegisterCode) : RegisterCode × Nat :=
  let cleaned := code.mapBlocks fun b => { b with ops := Known.filterOps {} b.ops }
  (cleaned, code.instructionCount - cleaned.instructionCount)

/-! ## All together -/

def cleanupRounds : Nat → RegisterCode → RegisterCode × Nat
  | 0, code => (code, 0)
  | rounds + 1, code =>
    let (code, blocks) := code.collapseJumps
    let (code, ops) := code.peephole
    let (code, rest) := cleanupRounds rounds code
    (code, blocks + ops + rest)

def cleanup (code : RegisterCode) (o : Options) : RegisterCode × Nat :=
  let (code, lines) := if o.keepsLines then (code, 0) else code.removeLines
  let (code, rounds) := cleanupRounds o.peepholeRounds code
  let (code, last) := code.collapseJumps
  (code, lines + rounds + last)

def cleanupEvents (method : MethodId) (count : Nat) : List Event :=
  if count = 0 then []
  else
    [{ kind := .peepholeApplied
       method := some method
       message := s!"{count} instructions or blocks removed"
       source := some "peephole" }]

end BytecodeOpt.RegisterCode
