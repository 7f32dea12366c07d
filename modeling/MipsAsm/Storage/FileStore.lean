import MipsAsm.Storage.Path
import MipsAsm.Text.Numeral

/-!
What a file store offers: whole files are read and written by path. A write that fails changes nothing.
-/

set_option autoImplicit false

namespace MipsAsm

inductive IoError
  | system (text : Text) (code : Nat)
  | notUtf8
  deriving DecidableEq, Repr

namespace IoError

def noSuchFile : IoError := system "No such file or directory".toList 2

def notDirectory : IoError := system "Not a directory".toList 20

def isDirectory : IoError := system "Is a directory".toList 21

def message : IoError → Text
  | system text code => text ++ " (os error ".toList ++ Numeral.decimal code ++ ")".toList
  | notUtf8 => "stream did not contain valid UTF-8".toList

end IoError

class FileStore (σ : Type) where
  read : σ → Path → Except IoError ByteArray
  write : σ → Path → ByteArray → Except IoError σ

namespace FileStore

def decodeText (bytes : ByteArray) : Except IoError Text :=
  match String.fromUTF8? bytes with
  | some s => .ok s.toList
  | none => .error .notUtf8

def encodeText (t : Text) : ByteArray := (String.ofList t).toUTF8

variable {σ : Type} [FileStore σ]

def readText (store : σ) (path : Path) : Except IoError Text := do
  decodeText (← read store path)

def writeText (store : σ) (path : Path) (t : Text) : Except IoError σ :=
  write store path (encodeText t)

end FileStore

end MipsAsm
