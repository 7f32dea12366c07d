import MipsAsm.Program.Resolution
import MipsAsm.Source.Expansion
import MipsAsm.Word.Bytes

/-!
Layout: every instruction and every string gets its address, and every label is bound. Addresses count
up from the two bases and wrap around at the end of the address space.
-/

set_option autoImplicit false

namespace MipsAsm

/-- The addresses of the first instruction and the first data word. -/
structure Bases where
  text : Word := 0x00400000
  data : Word := 0x10010000
  deriving DecidableEq, Repr

/-- An instruction with its address and the line that it comes from. -/
structure Placed where
  address : Word
  site : Site
  instr : SymInstr
  deriving DecidableEq, Repr

/-- What the lines so far have emitted, and where the next instruction and data word go. -/
structure Layout where
  segment : Segment := .text
  textNext : Word
  dataNext : Word
  symbols : Symbols := .empty
  text : Array Placed := #[]
  data : Array Word := #[]
  deriving DecidableEq, Repr

namespace Layout

def start (bases : Bases) : Layout := { textNext := bases.text, dataNext := bases.data }

/-- The address that a label on the next line stands for. -/
def here (l : Layout) : Word :=
  match l.segment with
  | .text => l.textNext
  | .data => l.dataNext

def bindLabel (l : Layout) : Option Text → Except Fault Layout
  | none => .ok l
  | some name => do return { l with symbols := ← l.symbols.bind l.segment name l.here }

def emitInstr (l : Layout) (site : Site) (i : SymInstr) : Layout :=
  { l with textNext := l.textNext + 4, text := l.text.push ⟨l.textNext, site, i⟩ }

def emitWords (l : Layout) (words : List Word) : Layout :=
  { l with dataNext := l.dataNext + BitVec.ofNat 32 (4 * words.length), data := l.data ++ words }

/-- Emits a statement. Strings belong to the data segment and instructions to the text segment. -/
def emit (l : Layout) (site : Site) : Statement → Except Fault Layout
  | .segment segment => .ok { l with segment }
  | .string bytes =>
    match l.segment with
    | .data => .ok (l.emitWords (Word.ofString bytes))
    | .text => .error (.unsupportedDirective ".asciiz in .text".toList)
  | .instr i =>
    match l.segment with
    | .text => do
      (← i.expand).foldlM (fun l concrete => do return l.emitInstr site (← SymInstr.read concrete)) l
    | .data => .error (.malformed (.instructionInData i.mnemonic))

/-- A label is bound before its line's statement is looked at, and a segment directive takes none. -/
def step (l : Layout) (line : SourceLine) : Except Fault Layout :=
  match line.label, line.statement with
  | some _, some (.segment _) => .error (.malformed .labelledSegment)
  | label, none => l.bindLabel label
  | label, some statement => do (← l.bindLabel label).emit line.site statement

def ofLines (bases : Bases) (lines : List SourceLine) : Except Diagnostic Layout :=
  lines.foldlM (fun l line => Diagnostic.locate line.site (l.step line)) (start bases)

/-- The words of the text segment. -/
def words (l : Layout) : Except Diagnostic (List Word) :=
  l.text.toList.mapM fun p => Diagnostic.locate p.site (p.instr.word l.symbols p.address)

end Layout

end MipsAsm
