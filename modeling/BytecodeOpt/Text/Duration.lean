/-!
# Durations

Elapsed time in the largest unit that fits, with two decimals; a half goes to the even neighbour.
-/

namespace BytecodeOpt.Text.Duration

def roundHalfEven (num den : Nat) : Nat :=
  let quotient := num / den
  let twice := 2 * (num % den)
  if twice < den then quotient
  else if den < twice then quotient + 1
  else quotient + quotient % 2

def unit (nanos : Nat) : Nat × String :=
  if 1000000000 ≤ nanos then (1000000000, "s")
  else if 1000000 ≤ nanos then (1000000, "ms")
  else if 1000 ≤ nanos then (1000, "µs")
  else (1, "ns")

def twoDigits (n : Nat) : String := if n < 10 then s!"0{n}" else toString n

def text (nanos : Nat) : String :=
  let (size, sign) := unit nanos
  let hundredths := roundHalfEven (100 * nanos) size
  s!"{hundredths / 100}.{twoDigits (hundredths % 100)}{sign}"

end BytecodeOpt.Text.Duration
