import BytecodeOpt.Text.CodeRange

/-!
# Blanks

The characters that count as white space, and trimming them from both ends of a text.
-/

namespace BytecodeOpt.Text

def blankRanges : List CodeRange := [
  (9, 13), (32, 32), (133, 133), (160, 160), (5760, 5760), (8192, 8202), (8232, 8233),
  (8239, 8239), (8287, 8287), (12288, 12288)]

def isBlank (c : Char) : Bool := inRanges blankRanges c.toNat

def trimEnd (cs : List Char) : List Char := (cs.reverse.dropWhile isBlank).reverse

def trim (cs : List Char) : List Char := trimEnd (cs.dropWhile isBlank)

end BytecodeOpt.Text
