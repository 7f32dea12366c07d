import MipsAsm.Program.Bindings
import MipsAsm.Source.Line

/-!
The symbol table: one set of bindings for each segment. Each name is bound at most once in a segment.
-/

set_option autoImplicit false

namespace MipsAsm

structure Symbols where
  text : Bindings := {}
  data : Bindings := {}
  deriving DecidableEq, Repr

namespace Symbols

def empty : Symbols := {}

def ofSegment (s : Symbols) : Segment → Bindings
  | .text => s.text
  | .data => s.data

def get? (s : Symbols) (segment : Segment) (name : Text) : Option Word :=
  (s.ofSegment segment).get? name

def bind (s : Symbols) (segment : Segment) (name : Text) (address : Word) : Except Fault Symbols :=
  if (s.get? segment name).isSome then .error (.duplicateLabel name)
  else .ok (match segment with
    | .text => { s with text := s.text.insert name address }
    | .data => { s with data := s.data.insert name address })

def lookup (s : Symbols) (segment : Segment) (name : Text) : Except Fault Word :=
  match s.get? segment name with
  | some address => .ok address
  | none => .error (.undefinedLabel name)

end Symbols

end MipsAsm
