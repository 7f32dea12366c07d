/-!
Text is a list of characters, so that every scanner of the library is a function on lists. This module
holds the blank characters, trimming, identifiers, and the two small pieces of layout that messages and
listings share.
-/

set_option autoImplicit false

namespace MipsAsm

abbrev Text := List Char

namespace Text

/-- The code points of the Unicode property White_Space, as closed ranges in ascending order. -/
def blankRanges : List (Nat × Nat) :=
  [(0x09, 0x0D), (0x20, 0x20), (0x85, 0x85), (0xA0, 0xA0), (0x1680, 0x1680), (0x2000, 0x200A),
    (0x2028, 0x2029), (0x202F, 0x202F), (0x205F, 0x205F), (0x3000, 0x3000)]

def isBlank (c : Char) : Bool :=
  blankRanges.any fun range => range.1 ≤ c.toNat && c.toNat ≤ range.2

def trimStart (t : Text) : Text := t.dropWhile isBlank

def trimEnd (t : Text) : Text := (t.reverse.dropWhile isBlank).reverse

def trim (t : Text) : Text := trimEnd (trimStart t)

/-- The text up to the first blank, and the trimmed rest behind it. -/
def splitBlank (t : Text) : Text × Text :=
  (t.takeWhile (!isBlank ·), trim (t.dropWhile (!isBlank ·)))

def isNameStart (c : Char) : Bool := c.isAlpha || c == '_' || c == '.'

def isNamePart (c : Char) : Bool := c.isAlphanum || c == '_' || c == '.'

/-- Identifiers are ASCII: a letter, underscore or dot, then letters, digits, underscores and dots. -/
def isIdentifier : Text → Bool
  | [] => false
  | c :: rest => isNameStart c && rest.all isNamePart

/-- What stands before the last character, if that character is `last`. -/
def dropLast? (last : Char) (t : Text) : Option Text :=
  if t.getLast? = some last then some t.dropLast else none

/-- What follows `mark` at the start of the text. -/
def dropMark? : Text → Text → Option Text
  | [], t => some t
  | _ :: _, [] => none
  | m :: mark, c :: t => if m = c then dropMark? mark t else none

/-- A text between backquotes, as messages quote what they found. -/
def quoted (t : Text) : Text := "`".toList ++ t ++ "`".toList

/-- Parts with `sep` between neighbours. -/
def joined (sep : Text) (parts : List Text) : Text := sep.intercalate parts

/-- Named values, as in `rs: 01, rt: 02`. -/
def namedList (entries : List (Text × Text)) : Text :=
  joined ", ".toList (entries.map fun entry => entry.1 ++ ": ".toList ++ entry.2)

end Text

end MipsAsm
