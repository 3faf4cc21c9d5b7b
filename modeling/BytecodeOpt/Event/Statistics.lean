import BytecodeOpt.Event
import BytecodeOpt.Text.Duration

/-!
# Statistics of events
-/

namespace BytecodeOpt.Event

def countKind (events : List Event) (kind : EventKind) : Nat := events.countP (·.kind = kind)

def ofMethod (events : List Event) (m : MethodId) : List Event :=
  events.filter (·.method = some m)

def transformations (events : List Event) : List Event := events.filter (·.kind.isTransformation)

def warnings (events : List Event) : List Event := events.filter (·.kind = .warning)

def methodsAffected (events : List Event) : Nat :=
  ((transformations events).filterMap Event.method).eraseDups.length

def changeCounts (events : List Event) : List String :=
  (EventKind.transformations.filter fun kind => 0 < countKind events kind).map fun kind =>
    s!"{countKind events kind} {kind}"

def summary (events : List Event) : String :=
  if events.isEmpty then "no events"
  else
    match changeCounts events with
    | [] => s!"{events.length} events"
    | counts => ", ".intercalate (counts.mergeSort fun a b => decide (a ≤ b))

structure Statistics where
  methodsTransformed : Nat
  methodsInlined : Nat
  sequencesOutlined : Nat
  constantsFolded : Nat
  instructionsRemoved : Nat
  blocksRemoved : Nat
  branchesSimplified : Nat
  methodsRegenerated : Nat
  classesSynthesized : Nat
  cyclesBroken : Nat
  warnings : Nat
  /-- Elapsed nanoseconds, zero if not measured. -/
  time : Nat := 0
  deriving DecidableEq, Repr, Inhabited

namespace Statistics

def ofEvents (events : List Event) : Statistics where
  methodsTransformed := methodsAffected events
  methodsInlined := countKind events .methodInlined
  sequencesOutlined := countKind events .sequenceOutlined
  constantsFolded := countKind events .constantFolded
  instructionsRemoved := countKind events .instructionRemoved
  blocksRemoved := countKind events .blockRemoved
  branchesSimplified := countKind events .branchSimplified
  methodsRegenerated := countKind events .codeRegenerated
  classesSynthesized := countKind events .classSynthesized
  cyclesBroken := countKind events .cycleBroken
  warnings := countKind events .warning

def toList (s : Statistics) : List Nat :=
  [s.methodsTransformed, s.methodsInlined, s.sequencesOutlined, s.constantsFolded,
    s.instructionsRemoved,
    s.blocksRemoved, s.branchesSimplified, s.methodsRegenerated, s.classesSynthesized,
      s.cyclesBroken,
    s.warnings]

def counts (s : Statistics) : List String :=
  ([(s.methodsTransformed, "methods"), (s.methodsInlined, "inlined"),
    (s.sequencesOutlined, "outlined"), (s.constantsFolded, "constants"),
    (s.instructionsRemoved, "instructions removed"), (s.cyclesBroken, "cycles broken")].filter
      fun (n, _) => 0 < n).map fun (n, what) => s!"{n} {what}"

def summary (s : Statistics) : String :=
  match s.counts with
  | [] => "no changes"
  | counts =>
    ", ".intercalate (counts ++ if 0 < s.time then [Text.Duration.text s.time] else [])

end Statistics

end BytecodeOpt.Event
