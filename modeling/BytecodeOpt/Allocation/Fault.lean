import BytecodeOpt.Op

/-!
# Why registers cannot be assigned
-/

namespace BytecodeOpt.Allocation

inductive Fault where
  | unusedPhi (value : Operand) (block : BlockId)
  | deadDefinition (op : Op) (block : BlockId)
  | outsideArguments (value : Operand)
  | pressure (limit : Nat)
  | pieceWithoutRegister (interval : String)
  | conflict (first second : Operand) (register : Reg) (position : Nat)
  | noRegisterAt (value : Operand) (position : Nat)
  | cannotThrow (block : BlockId)
  | noPlaceForMoves (source target : BlockId)
  deriving DecidableEq, Repr, Inhabited

namespace Fault

def message (method : MethodId) : Fault → String
  | .unusedPhi value block => s!"{method}: phi v{value} in B{block} is never used"
  | .deadDefinition op block => s!"{method}: dead definition `{op}` in B{block}"
  | .outsideArguments value =>
    s!"{method}: pre-coloured v{value} outside the argument registers"
  | .pressure limit => s!"Method {method} needs more than {limit} registers"
  | .pieceWithoutRegister interval => s!"{method}: {interval} has no register"
  | .conflict first second register position =>
    s!"{method}: v{first} and v{second} both hold r{register} at {position}"
  | .noRegisterAt value position => s!"{method}: v{value} has no register at position {position}"
  | .cannotThrow block => s!"{method}: B{block} has handlers but cannot throw"
  | .noPlaceForMoves source target =>
    s!"{method}: no place for the moves on B{source} -> B{target}"

def isPressure : Fault → Bool
  | .pressure _ => true
  | _ => false

end Fault

end BytecodeOpt.Allocation
