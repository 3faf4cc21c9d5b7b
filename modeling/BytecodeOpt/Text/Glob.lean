/-!
# Wildcard patterns

`*` stands for any text and `?` for any one character; every other character stands for itself.
-/

namespace BytecodeOpt.Text.Glob

/-- Tells for each tail of a text, the longest first, whether some tail of it is marked. -/
def anyLater : List Bool → List Bool
  | [] => []
  | mark :: rest =>
    let later := anyLater rest
    (mark || later.headD false) :: later

def afterOne (accepts : Char → Bool) : List Char → List Bool → List Bool
  | c :: text, _ :: marks => (accepts c && marks.headD false) :: afterOne accepts text marks
  | _, _ => [false]

def tails (text : List Char) : List Char → List Bool
  | [] => List.replicate text.length false ++ [true]
  | '*' :: pattern => anyLater (tails text pattern)
  | '?' :: pattern => afterOne (fun _ => true) text (tails text pattern)
  | c :: pattern => afterOne (· == c) text (tails text pattern)

def isMatch (pattern text : String) : Bool := (tails text.toList pattern.toList).headD false

end BytecodeOpt.Text.Glob
