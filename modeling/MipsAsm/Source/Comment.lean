import MipsAsm.Text.Basic

/-!
Comments. A number sign outside a string literal starts one, and it runs to the end of the line.
-/

set_option autoImplicit false

namespace MipsAsm

/-- Where a left-to-right scan of a line stands. -/
inductive Scan
  | code
  | literal
  | escape
  deriving DecidableEq, Repr

namespace Scan

/-- Quotes open and close a literal; inside one, a backslash takes the next character with it. -/
def next : Scan → Char → Scan
  | escape, _ => literal
  | literal, '\\' => escape
  | literal, '"' => code
  | code, '"' => literal
  | scan, _ => scan

/-- The characters before the comment, if the scan stands at `scan`. -/
def beforeComment (scan : Scan) : Text → Text
  | [] => []
  | c :: rest => if scan = code ∧ c = '#' then [] else c :: beforeComment (scan.next c) rest

end Scan

def stripComment (line : Text) : Text := Scan.code.beforeComment line

end MipsAsm
