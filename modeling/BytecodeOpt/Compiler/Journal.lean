import BytecodeOpt.Event

/-!
# The journal of a compilation
-/

namespace BytecodeOpt

structure Journal where
  events : List Event := []
  dumps : List String := []
  deriving DecidableEq, Repr, Inhabited

namespace Journal

def record (j : Journal) (events : List Event) : Journal := { j with events := j.events ++ events }

def linesOf (text : String) : List String :=
  let pieces := (text.splitOn "\n").map String.toList
  let ended := pieces.dropLast.map fun line => if line.getLast? = some '\r' then line.dropLast
    else line
  (ended ++ (pieces.getLast?.filter (!·.isEmpty)).toList).map String.ofList

def dumpText (method : MethodId) (title text : String) : String :=
  s!"begin_cfg\n  name \"{method}: {title}\"\n"
    ++ "".intercalate ((linesOf text).map fun line => s!"  {line}\n") ++ "end_cfg\n"

def dump (j : Journal) (method : MethodId) (title text : String) : Journal :=
  { j with dumps := j.dumps ++ [dumpText method title text] }

end Journal

end BytecodeOpt
