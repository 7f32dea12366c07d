import MipsAsm.Instr.Lookup
import MipsAsm.Storage.Failure
import MipsAsm.Text.Lines

/-!
Hex files: one word per line, eight lowercase hexadecimal digits. Reading skips blank lines.
-/

set_option autoImplicit false

namespace MipsAsm.HexFile

def render (words : List Word) : Text := Text.unlines (words.map Word.hex)

/-- The words of a text, or the number of its first bad line with the fault. -/
def parse (t : Text) : Except (Nat × Fault) (List Word) :=
  ((Text.numberedLines t).filter fun line => !(Text.trim line.1).isEmpty).mapM fun line =>
    (Word.written line.1).mapError fun fault => (line.2, fault)

def reading (path : Path) : Text := "reading ".toList ++ path

def writing (path : Path) : Text := "writing ".toList ++ path

def atLine (path : Path) (line : Nat) : Text := path ++ ":".toList ++ Numeral.decimal line

/-- The words of a file, given what reading it gave. -/
def ofContent (path : Path) (content : Except IoError Text) : Except Failure (List Word) := do
  let t ← content.mapError (Failure.ofIo [reading path])
  (parse t).mapError fun bad => Failure.ofFault [atLine path bad.1] bad.2

variable {σ : Type} [FileStore σ]

def load (store : σ) (path : Path) : Except Failure (List Word) :=
  ofContent path (FileStore.readText store path)

def save (store : σ) (path : Path) (words : List Word) : Except Failure σ :=
  (FileStore.writeText store path (render words)).mapError (Failure.ofIo [writing path])

end MipsAsm.HexFile
