import MipsAsm.Command.Arguments
import MipsAsm.Command.Job
import MipsAsm.Json
import MipsAsm.Program.Image
import MipsAsm.Storage.HexFile

/-!
The command `asm`: assembles a file into a text and a data file, or prints the words of one instruction.
-/

set_option autoImplicit false

namespace MipsAsm

def Bindings.toJson (b : Bindings) : Json :=
  .object (b.entries.map fun entry => (entry.1, .number entry.2.toNat))

def Symbols.toJson (s : Symbols) : Json :=
  .object [("text".toList, s.text.toJson), ("data".toList, s.data.toJson)]

/-- What an accepted command line asks for. -/
inductive AssembleCommand
  | line (bases : Bases) (line : Text)
  | file (bases : Bases) (input : Path) (outDir symbols : Option Path)
  deriving DecidableEq, Repr

namespace AssembleCommand

def kinds : List (Text × OptionKind) :=
  ["line", "out-dir", "text-base", "data-base", "symbols"].map fun name => (name.toList, .valued)

def base (a : Arguments) (option : String) (default : Word) : Except UsageError Word :=
  match a.value? option with
  | none => .ok default
  | some value =>
    match Numeral.readAddress value with
    | .ok n => .ok (BitVec.ofNat 32 n)
    | .error _ => .error (.invalidValue option.toList value)

/-- Takes one of an input file and an instruction, and at most one input file. -/
def ofArguments (arguments : List Text) : Except UsageError AssembleCommand := do
  let a ← Arguments.scan kinds {} arguments
  let outDir ← a.path? "out-dir"
  let symbols ← a.path? "symbols"
  let bases : Bases := ⟨← base a "text-base" (Bases.text {}), ← base a "data-base" (Bases.data {})⟩
  match a.value? "line", a.positionals with
  | none, [] => throw (.missingArgument "INPUT".toList)
  | none, [[]] => throw (.invalidValue "INPUT".toList [])
  | none, [input] => return file bases input outDir symbols
  | some instruction, [] => return line bases instruction
  | some _, _ :: _ => throw (.conflict "line".toList "INPUT".toList)
  | none, _ :: extra :: _ => throw (.unexpectedArgument extra)

/-- The words go to the text and data files, then the symbols to theirs. -/
def writes (input : Path) (outDir symbols : Option Path) (image : Image) : List Effect :=
  let artifact (extension : String) (words : List Word) : Effect :=
    let path := artifactPath input outDir extension
    .write path (HexFile.render words) [HexFile.writing path]
  [artifact ".text" image.text, artifact ".data" image.data] ++
    symbols.toList.map fun path => .write path image.symbols.toJson.render []

def job : AssembleCommand → Job
  | line bases instruction =>
    .immediate ((assembleLine bases instruction).map (fun words => [.print (HexFile.render words)])
      |>.mapError (Failure.ofFault []))
  | file bases input outDir symbols =>
    .reading input fun content => do
      let source ← content.mapError (Failure.ofIo [HexFile.reading input])
      let image ← (assemble bases source).mapError fun d =>
        ⟨["assembling ".toList ++ input], .diagnostic d⟩
      return writes input outDir symbols image

end AssembleCommand

end MipsAsm
