import BytecodeOpt.Allocation.Fault
import BytecodeOpt.Allocation.Interval

/-!
# Linear scan

Intervals get registers by ascending start.  An interval takes a register that is free as long as it
lasts: one it is hinted to, else the lowest, else a new one.  When all registers there may be are
open, it takes the one that stays free longest and is split where that register is needed again.
-/

namespace BytecodeOpt.Allocation

structure WorkItem where
  start : Nat
  value : Operand
  index : Nat
  deriving DecidableEq, Repr, Inhabited

def WorkItem.precedes (a b : WorkItem) : Bool :=
  a.start < b.start
    || (a.start = b.start && (a.value < b.value || (a.value = b.value && a.index < b.index)))

structure ScanSetting where
  ins : Nat
  maxRegisters : Nat
  hints : List (Operand × Operand)
  splitPosition? : Nat → Option Nat

structure Scan where
  pieces : Array Interval := #[]
  waiting : List WorkItem := []
  active : List Nat := []
  inactive : List Nat := []
  assigned : List (Operand × Reg) := []
  opened : Nat
  splits : Nat := 0
  deriving Repr, Inhabited

namespace Scan

def insertItem (item : WorkItem) : List WorkItem → List WorkItem
  | [] => [item]
  | other :: rest =>
    if item.precedes other then item :: other :: rest else other :: insertItem item rest

def piece (s : Scan) (index : Nat) : Interval := s.pieces.getD index { value := 0 }

def registerOf (s : Scan) (index : Nat) : Reg := (s.piece index).register.getD 0

def add (setting : ScanSetting) (s : Scan) (i : Interval) : Except Fault Scan :=
  let index := s.pieces.size
  if i.isEmpty then .ok s
  else if i.isFixed then
    let register := i.register.getD 0
    if s.opened ≤ register || setting.maxRegisters ≤ register then
      .error (.outsideArguments i.value)
    else
      .ok { s with
        pieces := s.pieces.push i
        assigned := (i.value, register) :: s.assigned
        inactive := s.inactive ++ [index] }
  else
    .ok { s with
      pieces := s.pieces.push i
      waiting := insertItem ⟨i.start, i.value, index⟩ s.waiting }

/-- Drops the pieces that have ended and sorts the others into active and inactive ones. -/
def advance (s : Scan) (position : Nat) : Scan :=
  let current := (s.active ++ s.inactive).filter fun index => position < (s.piece index).stop
  { s with
    active := current.filter fun index => (s.piece index).covers position
    inactive := current.filter fun index => !(s.piece index).covers position }

/-- For each open register, how long it stays free for an interval, at most until the interval
ends. -/
def freeUntil (s : Scan) (current : Interval) : Array Nat :=
  let free := Array.replicate s.opened current.stop
  let taken := s.active.foldl (fun free index => free.setIfInBounds (s.registerOf index) 0) free
  s.inactive.foldl (fun free index =>
    match (s.piece index).firstIntersection? current with
    | some position => free.modify (s.registerOf index) (min · position)
    | none => free) taken

def hinted (setting : ScanSetting) (s : Scan) (v : Operand) : List Reg :=
  (s.assigned.lookup v).toList
    ++ ((setting.hints.lookup v).bind fun source => s.assigned.lookup source).toList

def fitting? (setting : ScanSetting) (s : Scan) (free : Array Nat) (v : Operand) (stop : Nat) :
    Option Reg :=
  let fits := fun r => free[r]?.any (stop ≤ ·)
  ((s.hinted setting v).find? fits).or ((List.range s.opened).find? fits)

def longestFree? (free : Array Nat) : Option (Reg × Nat) :=
  free.toList.zipIdx.foldl (fun best (last, r) =>
    match best with
    | some (b, most) => if most < last then some (r, last) else some (b, most)
    | none => some (r, last)) none

def assign (s : Scan) (index : Nat) (register : Reg) : Scan :=
  let v := (s.piece index).value
  { s with
    pieces := s.pieces.modify index fun i => { i with register := some register }
    assigned := if (s.assigned.lookup v).isSome then s.assigned else (v, register) :: s.assigned
    active := s.active ++ [index] }

def split (s : Scan) (index position : Nat) : Scan :=
  match (s.piece index).splitAt position with
  | (_, none) => s
  | (before, some rest) =>
    { s with
      pieces := (s.pieces.setIfInBounds index before).push rest
      waiting := insertItem ⟨rest.start, rest.value, s.pieces.size⟩ s.waiting
      splits := s.splits + 1 }

def place (setting : ScanSetting) (s : Scan) (item : WorkItem) : Except Fault Scan :=
  let current := s.piece item.index
  let free := s.freeUntil current
  match s.fitting? setting free current.value current.stop with
  | some register => .ok (s.assign item.index register)
  | none =>
    if s.opened < setting.maxRegisters then
      .ok ({ s with opened := s.opened + 1 }.assign item.index s.opened)
    else
      match longestFree? free with
      | none => .error (.pressure setting.maxRegisters)
      | some (register, last) =>
        match (setting.splitPosition? last).filter (item.start < ·) with
        | none => .error (.pressure setting.maxRegisters)
        | some position => .ok ((s.split item.index position).assign item.index register)

/-- Places the waiting items in order; `fuel` bounds how often pieces can still be split. -/
def placeAll (setting : ScanSetting) : Nat → Scan → Except Fault Scan
  | 0, s => .ok s
  | fuel + 1, s =>
    match s.waiting with
    | [] => .ok s
    | item :: rest => do
      let s ← ({ s with waiting := rest }.advance item.start).place setting item
      placeAll setting fuel s

/-- Every piece covers a position of its own, so there are no more pieces than positions covered. -/
def run (setting : ScanSetting) (intervals : List Interval) : Except Fault Scan := do
  let start ← intervals.foldlM (add setting) { opened := setting.ins }
  if setting.maxRegisters < start.opened then
    throw (.pressure setting.maxRegisters)
  placeAll setting (totalOf Interval.size intervals + 1) start

end Scan

end BytecodeOpt.Allocation
