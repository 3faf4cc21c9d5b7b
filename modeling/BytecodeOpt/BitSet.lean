/-!
# Bit sets

Sets of small numbers, stored as a mask in whole words of 64 bits.  A set has room for the indices
below its capacity; unions and differences work on the words both sets have.
-/

namespace BytecodeOpt

structure BitSet where
  capacity : Nat
  mask : Nat := 0
  deriving DecidableEq, Repr, Inhabited

namespace BitSet

def wordSize : Nat := 64

def empty (capacity : Nat) : BitSet := { capacity }

def storage (s : BitSet) : Nat := (s.capacity + (wordSize - 1)) / wordSize * wordSize

def contains (s : BitSet) (index : Nat) : Bool := index < s.capacity && s.mask.testBit index

def isEmpty (s : BitSet) : Bool := s.mask == 0

def insert (s : BitSet) (index : Nat) : BitSet :=
  if index < s.capacity then { s with mask := s.mask ||| 1 <<< index } else s

def remove (s : BitSet) (index : Nat) : BitSet :=
  if s.contains index then { s with mask := s.mask ^^^ 1 <<< index } else s

def union (s t : BitSet) : BitSet := { s with mask := s.mask ||| t.mask % (1 <<< s.storage) }

def difference (s t : BitSet) : BitSet := { s with mask := s.mask ^^^ (s.mask &&& t.mask) }

def toList (s : BitSet) : List Nat := (List.range s.storage).filter s.mask.testBit

def count (s : BitSet) : Nat := s.toList.length

end BitSet

end BytecodeOpt
