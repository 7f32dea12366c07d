import MipsAsm.Diagnostic
import MipsAsm.Source.Comment
import MipsAsm.Source.InstrText
import MipsAsm.Source.Literal
import MipsAsm.Text.Lines

/-!
Source lines: an optional label and an optional statement. Lines that are empty without their comment
are left out, and the others keep their place in the source.
-/

set_option autoImplicit false

namespace MipsAsm

inductive Segment
  | text
  | data
  deriving DecidableEq, Repr

inductive Statement
  | segment (segment : Segment)
  | string (bytes : List UInt8)
  | instr (instr : InstrText)
  deriving DecidableEq, Repr

/-- A body that starts with a dot is a directive; what follows a segment's name is ignored. -/
def Statement.read (body : Text) : Except Fault Statement :=
  if body.head? = some '.' then
    let halves := Text.splitBlank body
    if halves.1 = ".text".toList then .ok (.segment .text)
    else if halves.1 = ".data".toList then .ok (.segment .data)
    else if halves.1 = ".asciiz".toList then (Literal.read halves.2).map .string
    else .error (.unsupportedDirective halves.1)
  else (InstrText.read body).map .instr

structure SourceLine where
  site : Site
  label : Option Text
  statement : Option Statement
  deriving DecidableEq, Repr

namespace SourceLine

/-- A colon ends a label unless a quote comes first. -/
def splitLabel (t : Text) : Except Fault (Option Text × Text) :=
  let inLabel (c : Char) : Bool := c ≠ ':' && c ≠ '"'
  match t.dropWhile inLabel with
  | ':' :: body =>
    let name := Text.trim (t.takeWhile inLabel)
    if Text.isIdentifier name then .ok (some name, Text.trim body)
    else .error (.malformed (.labelName name))
  | _ => .ok (none, t)

def read (site : Site) : Except Fault SourceLine := do
  let (label, body) ← splitLabel site.text
  if body.isEmpty then return ⟨site, label, none⟩
  return ⟨site, label, some (← Statement.read body)⟩

/-- The lines with something besides blanks and comments. -/
def sites (source : Text) : List Site :=
  (Text.numberedLines source).filterMap fun line =>
    let text := Text.trim (stripComment line.1)
    if text.isEmpty then none else some ⟨line.2, text⟩

def readAll (source : Text) : Except Diagnostic (List SourceLine) :=
  (sites source).mapM fun site => Diagnostic.locate site (read site)

end SourceLine

end MipsAsm
