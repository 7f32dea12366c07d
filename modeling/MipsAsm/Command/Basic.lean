import MipsAsm.Command.Assemble
import MipsAsm.Command.Disassemble

/-!
The two commands by name, from arguments to outcome.
-/

set_option autoImplicit false

namespace MipsAsm

inductive Command
  | assemble
  | disassemble
  deriving DecidableEq, Repr

namespace Command

def name : Command → Text
  | assemble => "asm".toList
  | disassemble => "mips-disasm".toList

def ofName? (t : Text) : Option Command := [assemble, disassemble].find? (·.name = t)

def job (c : Command) (arguments : List Text) : Except UsageError Job :=
  match c with
  | assemble => (AssembleCommand.ofArguments arguments).map AssembleCommand.job
  | disassemble => (DisassembleCommand.ofArguments arguments).map DisassembleCommand.job

/-- Arguments that the command does not accept end it with exit code 2. -/
def refused (c : Command) (error : UsageError) : Outcome :=
  { exit := 2, stderr := c.name ++ ": ".toList ++ error.message ++ "\n".toList }

def run {σ : Type} [FileStore σ] (c : Command) (arguments : List Text) (store : σ) : Outcome × σ :=
  match c.job arguments with
  | .ok job => job.run store
  | .error error => (c.refused error, store)

end Command

end MipsAsm
