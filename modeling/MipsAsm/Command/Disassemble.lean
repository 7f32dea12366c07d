import MipsAsm.Command.Arguments
import MipsAsm.Command.Job
import MipsAsm.Instr.Listing
import MipsAsm.Json
import MipsAsm.Storage.HexFile

/-!
The command `mips-disasm`: lists the instructions of words given as arguments or in a hex file.
-/

set_option autoImplicit false

namespace MipsAsm

/-- The record with its fields by name, the format first. -/
def Instr.toJson (r : Instr) : Json :=
  let named (m : Mnemonic) : Text × Json := ("mnemonic".toList, .string m.name)
  match r with
  | register m rs rt rd shamt funct =>
    .object [("type".toList, .string "r".toList), named m, ("rs".toList, .number rs.toNat),
      ("rt".toList, .number rt.toNat), ("rd".toList, .number rd.toNat),
      ("shamt".toList, .number shamt.toNat), ("funct".toList, .number funct.toNat)]
  | immediate m rs rt imm =>
    .object [("type".toList, .string "i".toList), named m, ("rs".toList, .number rs.toNat),
      ("rt".toList, .number rt.toNat), ("imm".toList, .number imm.toNat)]
  | jump m index =>
    .object [("type".toList, .string "j".toList), named m, ("index".toList, .number index.toNat)]
  | syscall code =>
    .object [("type".toList, .string "syscall".toList), ("code".toList, .number code.toNat)]

inductive OutputFormat
  | text
  | json
  deriving DecidableEq, Repr

/-- Where the words come from. -/
inductive WordSource
  | arguments (words : List Text)
  | file (path : Path)
  deriving DecidableEq, Repr

structure DisassembleCommand where
  source : WordSource
  assembler : Bool
  format : OutputFormat
  out : Option Path
  deriving DecidableEq, Repr

namespace DisassembleCommand

def kinds : List (Text × OptionKind) :=
  ("asm".toList, .flag) :: ["file", "format", "out"].map fun name => (name.toList, .valued)

def formatOf (a : Arguments) : Except UsageError OutputFormat :=
  match a.value? "format" with
  | none => .ok .text
  | some value =>
    if value = "text".toList then .ok .text
    else if value = "json".toList then .ok .json
    else .error (.invalidValue "format".toList value)

def sourceOf (a : Arguments) : Except UsageError WordSource := do
  match ← a.path? "file", a.positionals with
  | some path, [] => return .file path
  | some _, _ :: _ => throw (.conflict "file".toList "HEXWORD".toList)
  | none, [] => throw (.missingArgument "HEXWORD".toList)
  | none, words => return .arguments words

def ofArguments (arguments : List Text) : Except UsageError DisassembleCommand := do
  let a ← Arguments.scan kinds {} arguments
  return ⟨← sourceOf a, a.hasFlag "asm", ← formatOf a, ← a.path? "out"⟩

/-- The line for a decoded word; assembler text gives way to the listing where there is none. -/
def lineOf (assembler : Bool) (r : Instr) : Text :=
  if assembler then r.assemblerText?.getD r.listing else r.listing

def entryOf (decoded : Word × Instr) : Json :=
  .object [("word".toList, .string decoded.1.hex), ("instruction".toList, decoded.2.toJson),
    ("text".toList, .string decoded.2.listing)]

def render (c : DisassembleCommand) (decoded : List (Word × Instr)) : Text :=
  match c.format with
  | .text => Text.unlines (decoded.map fun d => lineOf c.assembler d.2)
  | .json => (Json.array (decoded.map entryOf)).render ++ "\n".toList

def wordOf (t : Text) : Except Failure Word :=
  (Word.written t).mapError (Failure.ofFault ["bad word ".toList ++ Text.quoted t])

def decodeWord (w : Word) : Except Failure (Word × Instr) :=
  ((Instr.decode w).map fun r => (w, r)).mapError
    (Failure.ofFault ["cannot disassemble ".toList ++ w.hex])

/-- All words are read before any is decoded, and all are decoded before anything is shown. -/
def effects (c : DisassembleCommand) (words : Except Failure (List Word)) :
    Except Failure (List Effect) := do
  let shown := c.render (← (← words).mapM decodeWord)
  match c.out with
  | some path => return [.write path shown []]
  | none => return [.print shown]

def job (c : DisassembleCommand) : Job :=
  match c.source with
  | .arguments words => .immediate (c.effects (words.mapM wordOf))
  | .file path => .reading path fun content => c.effects (HexFile.ofContent path content)

end DisassembleCommand

end MipsAsm
