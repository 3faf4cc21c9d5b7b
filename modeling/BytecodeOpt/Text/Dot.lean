/-!
# Labels in drawings of graphs
-/

namespace BytecodeOpt.Text.Dot

def escapeChar : Char → String
  | '\\' => "\\\\"
  | '"' => "\\\""
  | '\n' => "\\n"
  | '\r' => ""
  | '<' => "\\<"
  | '>' => "\\>"
  | c => c.toString

def escape (s : String) : String := "".intercalate (s.toList.map escapeChar)

end BytecodeOpt.Text.Dot
