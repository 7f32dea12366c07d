import MipsAsm.Diagnostic
import MipsAsm.Storage.FileStore

/-!
Failures of work on files: a cause, under messages that say what was being done.
-/

set_option autoImplicit false

namespace MipsAsm

inductive Cause
  | storage (error : IoError)
  | diagnostic (diagnostic : Diagnostic)
  deriving DecidableEq, Repr

def Cause.chain : Cause → List Text
  | storage error => [error.message]
  | diagnostic d => d.chain

structure Failure where
  contexts : List Text
  cause : Cause
  deriving DecidableEq, Repr

namespace Failure

def ofIo (contexts : List Text) (error : IoError) : Failure := ⟨contexts, .storage error⟩

def ofFault (contexts : List Text) (fault : Fault) : Failure := ⟨contexts, .diagnostic (.fault fault)⟩

/-- All messages, the outermost first. -/
def chain (f : Failure) : List Text := f.contexts ++ f.cause.chain

def summary (f : Failure) : Text := Text.joined ": ".toList f.chain

/-- A message with `first` in front of its first line and `later` in front of the others. -/
def indent (first later message : Text) : Text :=
  first ++ Text.joined ('\n' :: later) (message.splitOn '\n')

/-- The causes below the outermost message; several are numbered. -/
def showCauses : List Text → Text
  | [] => []
  | [cause] => "\n\nCaused by:\n".toList ++ indent "    ".toList "    ".toList cause
  | causes =>
    "\n\nCaused by:".toList ++ causes.zipIdx.flatMap fun cause =>
      '\n' :: indent ((Numeral.decimal cause.2).leftpad 5 ' ' ++ ": ".toList) "       ".toList cause.1

/-- What a command prints about the failure. -/
def report (f : Failure) : Text :=
  match f.chain with
  | [] => "Error: \n".toList
  | message :: causes => "Error: ".toList ++ message ++ showCauses causes ++ "\n".toList

end Failure

end MipsAsm
