import MipsAsm.Storage.FileStore

/-!
A file store in memory: directories and files under a root, with a working directory.
-/

set_option autoImplicit false

namespace MipsAsm

/-- The names on the way from the root. -/
abbrev Location := List Text

inductive Node
  | directory
  | file (content : ByteArray)

structure Tree where
  working : Location := []
  nodes : List (Location × Node) := []

namespace Tree

def node? (t : Tree) (place : Location) : Option Node :=
  if place.isEmpty then some .directory else t.nodes.lookup place

def setNode (t : Tree) (place : Location) (node : Node) : Tree :=
  { t with nodes := (place, node) :: t.nodes.filter (·.1 ≠ place) }

/-- Adds the directory and those above it, where they are missing. -/
def addDirectory (t : Tree) (place : Location) : Tree :=
  let step (made : Tree × Location) (name : Text) : Tree × Location :=
    let dir := made.2 ++ [name]
    (if (made.1.node? dir).isSome then made.1 else made.1.setNode dir .directory, dir)
  (place.foldl step (t, [])).1

/-- Adds a file and the directories above it. -/
def addFile (t : Tree) (place : Location) (content : ByteArray) : Tree :=
  (t.addDirectory place.dropLast).setNode place (.file content)

/-- Goes on from a directory to the directory that a piece of a path names. -/
def enter (t : Tree) (dir : Location) (piece : Text) : Except IoError Location :=
  if Path.isFiller piece then .ok dir
  else if piece = Path.parent then .ok dir.dropLast
  else
    match t.node? (dir ++ [piece]) with
    | some .directory => .ok (dir ++ [piece])
    | some (.file _) => .error .notDirectory
    | none => .error .noSuchFile

/-- A slash at the start means the root. -/
def origin (t : Tree) (path : Path) : Location :=
  if path.head? = some '/' then [] else t.working

/-- The location of a last piece that is a name; the other pieces name directories. -/
def child (t : Tree) (dir : Location) (piece : Text) : Except IoError Location :=
  if Path.isFiller piece || piece == Path.parent then .error .isDirectory
  else match t.node? (dir ++ [piece]) with
    | some .directory => .error .isDirectory
    | _ => .ok (dir ++ [piece])

def read (t : Tree) (path : Path) : Except IoError ByteArray := do
  if path.isEmpty then throw .noSuchFile
  let pieces := Path.pieces path
  let dir ← pieces.dropLast.foldlM t.enter (t.origin path)
  let place ← t.child dir (pieces.getLast?.getD [])
  match t.node? place with
  | some (.file content) => return content
  | _ => throw .noSuchFile

/-- A slash at the end asks for a directory, which cannot be written. -/
def write (t : Tree) (path : Path) (content : ByteArray) : Except IoError Tree := do
  if path.isEmpty then throw .noSuchFile
  let body := ((Path.pieces path).reverse.dropWhile (·.isEmpty)).reverse
  let dir ← body.dropLast.foldlM t.enter (t.origin path)
  if path.getLast? = some '/' then throw .isDirectory
  let place ← t.child dir (body.getLast?.getD [])
  return t.setNode place (.file content)

instance : FileStore Tree where
  read := read
  write := write

end Tree

end MipsAsm
