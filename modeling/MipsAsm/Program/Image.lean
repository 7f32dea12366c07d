import MipsAsm.Program.Layout

/-!
Assembling a source into its image, and a single instruction into its words.
-/

set_option autoImplicit false

namespace MipsAsm

structure Image where
  text : List Word
  data : List Word
  symbols : Symbols
  deriving DecidableEq, Repr

/-- All lines are read before any is laid out, and all are laid out before any is resolved. -/
def assemble (bases : Bases) (source : Text) : Except Diagnostic Image := do
  let lines ← SourceLine.readAll source
  let layout ← Layout.ofLines bases lines
  return ⟨← layout.words, layout.data.toList, layout.symbols⟩

/-- The words of one instruction, for which no label has an address. -/
def assembleLine (bases : Bases) (line : Text) : Except Fault (List Word) := do
  let concrete ← (← InstrText.read (Text.trim (stripComment line))).expand
  concrete.zipIdx.mapM fun placed => do
    (← SymInstr.read placed.1).word .empty (bases.text + BitVec.ofNat 32 (4 * placed.2))

end MipsAsm
