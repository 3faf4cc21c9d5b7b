import BytecodeOpt.Instruction

/-!
# Parallel moves

Moves between registers that all read before any of them writes, put into an order in which they can
be carried out one after the other.
-/

namespace BytecodeOpt.Allocation

structure Move where
  dest : Reg
  source : Reg
  deriving DecidableEq, Repr, Inhabited

namespace Move

def isReady (pending : List Move) (m : Move) : Bool := !pending.any (·.source = m.dest)

def redirect (old new : Reg) (m : Move) :
    Move := if m.source = old then { m with source := new } else m

/-- Takes a ready move, or frees a register by way of the scratch register when there is none. -/
def orderFrom (scratch : Reg) : Nat → List Move → List Move
  | 0, _ => []
  | _, [] => []
  | fuel + 1, first :: rest =>
    let pending := first :: rest
    match pending.find? (isReady pending) with
    | some m => m :: orderFrom scratch fuel (pending.erase m)
    | none =>
      ⟨scratch, first.source⟩ :: orderFrom scratch fuel
        (pending.map (redirect first.source scratch))

/-- A sequence with the effect of the parallel moves.  Each move is taken once, and behind each
detour through the scratch register a move is ready. -/
def order (moves : List Move) (scratch : Reg) : List Move :=
  let pending := moves.filter fun m => m.dest ≠ m.source
  orderFrom scratch (2 * pending.length) pending

def outside : Reg := 65535

def needsScratch (moves : List Move) : Bool := (order moves outside).any (·.dest = outside)

end Move

end BytecodeOpt.Allocation
