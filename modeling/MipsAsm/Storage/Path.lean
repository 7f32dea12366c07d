import MipsAsm.Text.Basic

/-!
File paths as written. A path is a sequence of pieces between slashes; empty pieces and `.` behind the
first piece say nothing.
-/

set_option autoImplicit false

namespace MipsAsm

abbrev Path := Text

namespace Path

def here : Text := ".".toList

def parent : Text := "..".toList

def pieces (p : Path) : List Text := p.splitOn '/'

def ofPieces (pieces : List Text) : Path := Text.joined "/".toList pieces

/-- Pieces that lead nowhere else. -/
def isFiller (piece : Text) : Bool := piece.isEmpty || piece == here

/-- Drops the fillers at the end, except a piece at the very start of the path. -/
def dropFillers : List Text → List Text
  | [] => []
  | first :: rest => first :: (rest.reverse.dropWhile isFiller).reverse

/-- What stands before the file name, and the file name, if the path ends in one. -/
def splitName? (p : Path) : Option (List Text × Text) :=
  let body := dropFillers (pieces p)
  match body.getLast? with
  | none => none
  | some name =>
    if isFiller name || name == parent then none else some (dropFillers body.dropLast, name)

def fileName? (p : Path) : Option Text := (splitName? p).map (·.2)

/-- A name inside a directory. A directory that is empty or ends in a slash takes no further slash. -/
def join (dir : Path) (name : Text) : Path :=
  if dir.isEmpty || dir.getLast? == some '/' then dir ++ name else dir ++ "/".toList ++ name

/-- The path with another file name, or with the name behind it if it has none. -/
def withFileName (p : Path) (name : Text) : Path :=
  match splitName? p with
  | some (dir, _) => ofPieces (dir ++ [name])
  | none => join p name

end Path

/-- The output files of an input: its name with an extension, in the output directory if there is one
and else beside the input. -/
def artifactPath (input : Path) (outDir : Option Path) (extension : String) : Path :=
  let name := (Path.fileName? input).getD "out".toList ++ extension.toList
  match outDir with
  | some dir => Path.join dir name
  | none => Path.withFileName input name

end MipsAsm
