import MipsAsm.Fault

/-!
String literals: characters between double quotes, with six escapes. A literal stands for the UTF-8
bytes of its characters.
-/

set_option autoImplicit false

namespace MipsAsm.Literal

/-- The characters that a backslash may precede, with what they stand for. -/
def escapes : List (Char × Char) :=
  [('n', '\n'), ('t', '\t'), ('r', '\r'), ('0', '\x00'), ('\\', '\\'), ('"', '"')]

/-- The characters of the literal `whole` from the body that is left of it. -/
def unescape (whole : Text) : Text → Except Fault Text
  | [] => .ok []
  | '"' :: _ => .error (.malformed (.literal whole))
  | ['\\'] => .error (.malformed (.literal whole))
  | '\\' :: c :: rest =>
    match escapes.lookup c with
    | some value => (unescape whole rest).map (value :: ·)
    | none => .error (.malformed (.escape c))
  | c :: rest => (unescape whole rest).map (c :: ·)

/-- What stands between the quotes at the two ends. -/
def body? : Text → Option Text
  | '"' :: rest => Text.dropLast? '"' rest
  | _ => none

def characters (t : Text) : Except Fault Text :=
  match body? t with
  | some body => unescape t body
  | none => .error (.malformed (.literal t))

def utf8 (t : Text) : List UInt8 := t.flatMap String.utf8EncodeChar

def read (t : Text) : Except Fault (List UInt8) := (characters t).map utf8

end MipsAsm.Literal
