import BytecodeOpt.BitSet
import BytecodeOpt.Ssa.Body

/-!
# Liveness

A value is live into a block if the block reads it before defining it, or if it is live out of the
block and not defined there.  A phi operand is read at the end of the predecessor it comes from.
-/

namespace BytecodeOpt.Ssa

structure Liveness where
  liveIn : Array BitSet
  liveOut : Array BitSet
  deriving DecidableEq, Repr, Inhabited

namespace Liveness

structure Local where
  exposed : BitSet
  defined : BitSet
  deriving DecidableEq, Repr, Inhabited

def Local.read (l : Local) (v : Operand) : Local :=
  if l.defined.contains v then l else { l with exposed := l.exposed.insert v }

def Local.define (l : Local) (v : Operand) : Local := { l with defined := l.defined.insert v }

def Local.step (l : Local) (op : Op) : Local :=
  op.dest?.toList.foldl Local.define (op.uses.foldl Local.read l)

def ofBlock (capacity : Nat) (b : Block) : Local :=
  b.ops.foldl Local.step
    ((b.phis.map Phi.dest).foldl Local.define ⟨.empty capacity, .empty capacity⟩)

def phiReads (body : Body) : Array BitSet :=
  (body.blocks.toList.flatMap fun b => b.phis.flatMap fun phi => phi.operands.zip b.preds).foldl
    (fun reads (v, pred) => reads.modify pred (·.insert v))
    (Array.replicate body.blockCount (.empty body.valueCount))

structure Problem where
  locals : Array Local
  phiReads : Array BitSet
  successors : Array (List BlockId)
  deriving Repr, Inhabited

def Problem.outOf (p : Problem) (l : Liveness) (b : BlockId) : BitSet :=
  (p.successors.getD b []).foldl (fun out s => out.union (l.liveIn.getD s default))
    (p.phiReads.getD b default)

def Problem.inTo (p : Problem) (out : BitSet) (b : BlockId) : BitSet :=
  let loc := p.locals.getD b default
  (out.difference loc.defined).union loc.exposed

def Problem.update (p : Problem) (l : Liveness) (b : BlockId) : Liveness :=
  let out := p.outOf l b
  { liveIn := l.liveIn.modify b (·.union (p.inTo out b))
    liveOut := l.liveOut.modify b (·.union out) }

/-- Sweeps over the blocks until nothing changes, at most `rounds` times. -/
def Problem.solve (p : Problem) (order : List BlockId) : Nat → Liveness → Liveness
  | 0, l => l
  | rounds + 1, l =>
    let next := order.foldl p.update l
    if next = l then l else solve p order rounds next

/-- Each sweep but the last adds a value to one of the sets, which bounds the number of sweeps. -/
def ofBody (body : Body) : Liveness :=
  let locals := body.blocks.map (ofBlock body.valueCount)
  let reads := phiReads body
  let problem : Problem := ⟨locals, reads, body.blocks.map Block.successors⟩
  problem.solve body.reversePostorder.reverse (2 * body.blockCount * body.valueCount + 1)
    { liveIn := locals.map Local.exposed, liveOut := reads }

def liveInto (l : Liveness) (b : BlockId) : List Operand := (l.liveIn.getD b default).toList

def liveOutOf (l : Liveness) (b : BlockId) : List Operand := (l.liveOut.getD b default).toList

end Liveness

end BytecodeOpt.Ssa
