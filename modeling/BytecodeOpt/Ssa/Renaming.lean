import BytecodeOpt.Op

/-!
# Renaming of values

Replacements of one value by another, followed transitively.
-/

namespace BytecodeOpt.Ssa

structure Renaming where
  entries : List (Operand × Operand) := []
  deriving DecidableEq, Repr, Inhabited

namespace Renaming

def size (r : Renaming) : Nat := r.entries.length

def get? (r : Renaming) (v : Operand) : Option Operand := r.entries.lookup v

def isRenamed (r : Renaming) (v : Operand) : Bool := (r.get? v).isSome

def insert (r : Renaming) (v target : Operand) : Renaming :=
  { entries := (v, target) :: r.entries.filter (·.1 != v) }

def ofList (entries : List (Operand × Operand)) : Renaming :=
  entries.foldl (fun r (v, target) => r.insert v target) {}

def follow (r : Renaming) : Nat → Operand → Operand
  | 0, v => v
  | steps + 1, v =>
    match r.get? v with
    | none => v
    | some next => if next = v then v else follow r steps next

/-- Replacements without a cycle end within as many steps as there are entries. -/
def resolve (r : Renaming) (v : Operand) : Operand := r.follow (r.size + 1) v

end Renaming

end BytecodeOpt.Ssa
