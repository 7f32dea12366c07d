import MipsAsm.Text.Numeral

/-!
JSON values and their layout on lines, two blanks deeper at each level.
-/

set_option autoImplicit false

namespace MipsAsm

inductive Json
  | number (n : Nat)
  | string (t : Text)
  | array (items : List Json)
  | object (members : List (Text × Json))

namespace Json

def escapeChar (c : Char) : Text :=
  if c = '"' then "\\\"".toList
  else if c = '\\' then "\\\\".toList
  else if c = '\n' then "\\n".toList
  else if c = '\r' then "\\r".toList
  else if c = '\t' then "\\t".toList
  else if c = '\x08' then "\\b".toList
  else if c = '\x0c' then "\\f".toList
  else if c.toNat < 0x20 then "\\u".toList ++ Numeral.hex 4 c.toNat
  else [c]

def quote (t : Text) : Text := "\"".toList ++ t.flatMap escapeChar ++ "\"".toList

def newline (depth : Nat) : Text := '\n' :: List.replicate (2 * depth) ' '

/-- Entries on lines of their own between two brackets. -/
def block (depth : Nat) (opening closing : Text) (entries : List Text) : Text :=
  if entries.isEmpty then opening ++ closing
  else
    opening ++ newline (depth + 1) ++ Text.joined (",".toList ++ newline (depth + 1)) entries ++
      newline depth ++ closing

mutual

def pretty (depth : Nat) : Json → Text
  | number n => Numeral.decimal n
  | string t => quote t
  | array items => block depth "[".toList "]".toList (prettyItems (depth + 1) items)
  | object members => block depth "\x7b".toList "\x7d".toList (prettyMembers (depth + 1) members)

def prettyItems (depth : Nat) : List Json → List Text
  | [] => []
  | item :: rest => pretty depth item :: prettyItems depth rest

def prettyMembers (depth : Nat) : List (Text × Json) → List Text
  | [] => []
  | (name, value) :: rest =>
    (quote name ++ ": ".toList ++ pretty depth value) :: prettyMembers depth rest

end

def render (j : Json) : Text := pretty 0 j

end Json

end MipsAsm
