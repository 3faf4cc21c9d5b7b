import BytecodeOpt.Op
import BytecodeOpt.Total

/-!
# Live intervals

The positions of a body at which a value needs a register, as ranges in ascending order with gaps
between them.
-/

namespace BytecodeOpt.Allocation

/-- The positions from `start` up to, but not including, `stop`. -/
structure Range where
  start : Nat
  stop : Nat
  deriving DecidableEq, Repr, Inhabited

namespace Range

def covers (r : Range) (position : Nat) : Bool := r.start ≤ position && position < r.stop

def intersection? (a b : Range) : Option Nat :=
  let start := max a.start b.start
  if start < min a.stop b.stop then some start else none

def touches (a b : Range) : Bool := b.start ≤ a.stop && a.start ≤ b.stop

def hull (a b : Range) : Range := ⟨min a.start b.start, max a.stop b.stop⟩

end Range

structure Interval where
  value : Operand
  ranges : List Range := []
  register : Option Reg := none
  isFixed : Bool := false
  deriving DecidableEq, Repr, Inhabited

namespace Interval

def isEmpty (i : Interval) : Bool := i.ranges.isEmpty

/-- The first position, zero if there is none. -/
def start (i : Interval) : Nat := (i.ranges.head?.map Range.start).getD 0

def stop (i : Interval) : Nat := (i.ranges.getLast?.map Range.stop).getD 0

def covers (i : Interval) (position : Nat) : Bool := i.ranges.any (·.covers position)

def insertRange (r : Range) : List Range → List Range
  | [] => [r]
  | s :: rest => if s.start < r.start then s :: insertRange r rest else r :: s :: rest

/-- Joins a range with those it touches and keeps the order; one range may bring the next within
reach. -/
def mergeRange (ranges : List Range) (r : Range) : List Range :=
  let (kept, merged) := ranges.foldl (fun (kept, merged) s =>
    if s.touches merged then (kept, merged.hull s) else (kept ++ [s], merged)) ([], r)
  insertRange merged kept

def addRange (i : Interval) (start stop : Nat) : Interval :=
  if stop ≤ start then i else { i with ranges := mergeRange i.ranges ⟨start, stop⟩ }

def ofRanges (value : Operand) (ranges : List (Nat × Nat)) : Interval :=
  ranges.foldl (fun i (start, stop) => i.addRange start stop) { value }

def defineAt (i : Interval) (position : Nat) : Interval :=
  match i.ranges with
  | first :: rest =>
    if first.covers position then { i with ranges := { first with start := position } :: rest }
    else i.addRange position (position + 1)
  | [] => i.addRange position (position + 1)

def firstCommon? : List Range → List Range → Option Nat
  | [], _ => none
  | _ :: _, [] => none
  | a :: as, b :: bs =>
    match a.intersection? b with
    | some position => some position
    | none => if a.stop ≤ b.stop then firstCommon? as (b :: bs) else firstCommon? (a :: as) bs
termination_by as bs => as.length + bs.length

def firstIntersection? (a b : Interval) : Option Nat := firstCommon? a.ranges b.ranges

def rangeBefore? (position : Nat) (r : Range) : Option Range :=
  if r.start < position then some { r with stop := min r.stop position } else none

def rangeFrom? (position : Nat) (r : Range) : Option Range :=
  if position < r.stop then some { r with start := max r.start position } else none

/-- What is covered before a position, and what from it on, if anything. -/
def splitAt (i : Interval) (position : Nat) : Interval × Option Interval :=
  let before := i.ranges.filterMap (rangeBefore? position)
  let rest := i.ranges.filterMap (rangeFrom? position)
  ({ i with ranges := before },
    if rest.isEmpty then none else some { value := i.value, ranges := rest })

def size (i : Interval) : Nat := totalOf (fun r => r.stop - r.start) i.ranges

def text (i : Interval) : String :=
  s!"v{i.value}" ++ (i.register.map fun r => s!" r{r}").getD ""
    ++ "".intercalate (i.ranges.map fun r => s!" [{r.start}, {r.stop})")

instance : ToString Interval := ⟨text⟩

end Interval

end BytecodeOpt.Allocation
