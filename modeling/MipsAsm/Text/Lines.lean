import MipsAsm.Text.Basic

/-!
Lines of a text. A line feed ends a line, together with one carriage return right before it. A last
line without a line feed keeps its characters, and a final line feed starts no further line.
-/

set_option autoImplicit false

namespace MipsAsm.Text

def dropReturn (line : Text) : Text := (dropLast? '\r' line).getD line

def lines (t : Text) : List Text :=
  let pieces := t.splitOn '\n'
  pieces.dropLast.map dropReturn ++ pieces.getLast?.toList.filter (!·.isEmpty)

/-- Lines with their numbers, counted from one. -/
def numberedLines (t : Text) : List (Text × Nat) := (lines t).zipIdx 1

/-- Every line followed by a line feed. -/
def unlines (lines : List Text) : Text := lines.flatMap (· ++ ['\n'])

end MipsAsm.Text
