/-!
# Ranges of code points

A character class is a list of inclusive ranges in ascending order.
-/

namespace BytecodeOpt.Text

abbrev CodeRange := Nat × Nat

/-- Ranges from a code point on, each given by the gap before it and its length. -/
def rangesFrom : Nat → List (Nat × Nat) → List CodeRange
  | _, [] => []
  | start, (gap, length) :: rest => (start + gap, start + gap + length - 1) :: rangesFrom
      (start + gap + length) rest

def inRanges : List CodeRange → Nat → Bool
  | [], _ => false
  | (low, high) :: rest, n => if n < low then false else n ≤ high || inRanges rest n

end BytecodeOpt.Text
