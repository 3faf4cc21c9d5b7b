import BytecodeOpt.Op

/-!
# Why code cannot be lifted
-/

namespace BytecodeOpt.Ssa

inductive LiftFault where
  | argumentRegisters (ins arguments registers : Nat)
  | emptyCode
  | targetOutside (target : Nat)
  | invalidTry (start stop : Nat)
  | fallsOffEnd
  | mixedSuccessor (target : Nat)
  | noBlockAt (index : Nat)
  | registerOutside (reg : Reg)
  | undefinedRegister (reg : Reg)
  | resultOfVoidCall (index : Nat)
  | strayResult (index : Nat)
  | strayException (index : Nat)
  | emptyPhi (value : Operand)
  | neverSealed (block : BlockId)
  deriving DecidableEq, Repr, Inhabited

namespace LiftFault

def message : LiftFault → String
  | .argumentRegisters ins arguments registers =>
    s!"{ins} argument registers for {arguments} arguments in a frame of {registers}"
  | .emptyCode => "empty code"
  | .targetOutside target => s!"branch target {target} outside of code"
  | .invalidTry start stop => s!"invalid try range {start}..{stop}"
  | .fallsOffEnd => "control falls off the end of the code"
  | .mixedSuccessor target =>
    s!"instruction {target} is both a normal and an exceptional successor"
  | .noBlockAt index => s!"no block starts at {index}"
  | .registerOutside reg => s!"register r{reg} out of range"
  | .undefinedRegister reg => s!"register r{reg} is read before it is defined"
  | .resultOfVoidCall index => s!"move-result after a void call at {index}"
  | .strayResult index => s!"move-result at {index} does not follow a call"
  | .strayException index => s!"move-exception at {index} outside of a handler entry"
  | .emptyPhi value => s!"v{value} has no defined operand"
  | .neverSealed block => s!"block B{block} was never sealed"

def isInternal : LiftFault → Bool
  | .neverSealed _ => true
  | _ => false

end LiftFault

end BytecodeOpt.Ssa
