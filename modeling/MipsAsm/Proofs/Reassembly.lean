import MipsAsm.Program.Image
import MipsAsm.Proofs.Lines
import MipsAsm.Proofs.Rendering

/-!
Disassembly and assembly. The assembler text of a decoded word assembles to the word, except for the
source register of `lui`, which has no text; the listing of a decoded word is no instruction.
-/

set_option autoImplicit false

namespace MipsAsm

open Text Numeral Outcome

theorem assembleLine_render {i : InstrText} (hPlain : i.Plain) {s : SymInstr} (hReads : SymInstr.Reads i s)
    {bases : Bases} {w : Word} (hWord : s.word .empty bases.text = .ok w) :
    assembleLine bases i.render = .ok [w] := by
  have hComment : stripComment i.render = i.render :=
    stripComment_eq_self (hPlain.not_mem_render (by decide) (by decide))
  have hRead : InstrText.read (trim i.render) = .ok i :=
    (InstrText.read_trim _).trans hPlain.wellFormed.read_render
  have hWords : [i].zipIdx.mapM (fun placed => do
      (← SymInstr.read placed.1).word .empty (bases.text + BitVec.ofNat 32 (4 * placed.2))) = .ok [w] := by
    refine mapM_eq_ok_iff.mpr (.cons ?_ .nil)
    refine bind_eq_ok.mpr ⟨s, hReads.read_eq, ?_⟩
    simpa using hWord
  rw [assembleLine, hComment]
  exact bind_eq_ok.mpr ⟨i, hRead, bind_eq_ok.mpr ⟨[i], hReads.expand_eq, hWords⟩⟩

/-- The assembler text of a decoded record assembles to the record's word. -/
theorem assembleLine_assemblerText {w : Word} {d : Instr} (hDecode : Instr.decode w = .ok d) {t : Text}
    (hText : d.assemblerText? = some t) (bases : Bases) : assembleLine bases t = .ok [w.canonical] := by
  obtain ⟨hConsistent, hFits, hCanonical⟩ := Instr.decode_valid hDecode
  obtain ⟨i, hInstr, rfl⟩ := Option.map_eq_some_iff.mp hText
  have hPlain := Instr.toInstrText?_plain hFits hCanonical hInstr
  obtain ⟨s, hReads, hWord⟩ :=
    Instr.exists_reads_word hConsistent hFits hCanonical hInstr (Instr.encode_of_decode hDecode)
  exact assembleLine_render hPlain hReads (hWord _ _)

theorem Instr.assemblerText?_eq_none_iff (d : Instr) :
    d.assemblerText? = none ↔
      (∃ m rs rt rd shamt funct, d = .register m rs rt rd shamt funct ∧ shamt ≠ 0) ∨
        ∃ code, d = .syscall code ∧ code ≠ 0 := by
  rw [assemblerText?, Option.map_eq_none_iff]
  cases d with
  | register m rs rt rd shamt funct => simp [toInstrText?]
  | immediate m rs rt imm => simp [toInstrText?]
  | jump m index => simp [toInstrText?]
  | syscall code => simp [toInstrText?]

namespace Instr

theorem columns_plain (r : Instr) : ∀ column ∈ r.columns, Plain column.1 ∧ Plain column.2 := by
  have hHex (width n : Nat) : Plain (hex width n) := (allDigits_hex width n).plain
  have hNames : Plain "opcode".toList ∧ Plain "rs".toList ∧ Plain "rt".toList ∧ Plain "rd".toList ∧
      Plain "shmt".toList ∧ Plain "funct".toList ∧ Plain "rs(base)".toList ∧
      Plain "immediate(offset)".toList ∧ Plain "index".toList ∧ Plain "code".toList := by
    decide
  cases r <;> simp only [columns, List.forall_mem_cons, hHex, hNames, true_and, and_self] <;> simp

theorem not_mem_column {r : Instr} {column : Text × Text} (h : column ∈ r.columns) {c : Char}
    (hChar : isOperandChar c = false) (hMark : c ∉ ": ".toList) :
    c ∉ column.1 ++ ": ".toList ++ column.2 := by
  obtain ⟨hName, hValue⟩ := r.columns_plain column h
  simp only [List.mem_append, not_or]
  exact ⟨⟨hName.not_mem hChar, hMark⟩, hValue.not_mem hChar⟩

/-- The columns between their braces, as they stand behind the mnemonic. -/
def listed (r : Instr) : Text := "\x7b".toList ++ namedList r.columns ++ "\x7d".toList

theorem listing_eq (r : Instr) : r.listing = r.mnemonic.name ++ ' ' :: r.listed := by
  simp [listing, listed]

theorem trimmed_listed (r : Instr) : Trimmed r.listed :=
  Trimmed.append (trimmed_of_forall (List.forall_mem_singleton.mpr rfl))
    (trimmed_of_forall (List.forall_mem_singleton.mpr rfl)) (List.cons_ne_nil _ _) (List.cons_ne_nil _ _) _

theorem listed_ne_nil (r : Instr) : r.listed ≠ [] := List.cons_ne_nil _ _

theorem count_comma_listed (r : Instr) : r.listed.count ',' + 1 = r.columns.length := by
  have hColumns : ∀ part ∈ r.columns.map (fun entry => entry.1 ++ ": ".toList ++ entry.2), ',' ∉ part := by
    intro part hPart
    obtain ⟨column, hColumn, rfl⟩ := List.mem_map.mp hPart
    exact not_mem_column hColumn (by decide) (by decide)
  obtain ⟨first, rest, hSplit⟩ : ∃ first rest, r.columns = first :: rest := by
    cases r <;> exact ⟨_, _, rfl⟩
  rw [hSplit, List.map_cons, List.forall_mem_cons] at hColumns
  have hCount := InstrText.count_comma_joined hColumns.1 hColumns.2
  have hBraces : ("\x7b".toList).count ',' = 0 ∧ ("\x7d".toList).count ',' = 0 := by decide
  rw [listed, namedList, List.count_append, List.count_append, hSplit, List.map_cons, hCount, hBraces.1,
    hBraces.2, List.length_map, List.length_cons]
  omega

theorem not_mem_listing (r : Instr) {c : Char} (hChar : isOperandChar c = false)
    (hMarks : c ∉ "\x7b:, \x7d".toList) : c ∉ r.listing := by
  intro hMem
  simp only [listing_eq, listed, List.mem_append, List.mem_cons] at hMem
  rcases hMem with hName | rfl | (hOpen | hColumns) | hClose
  · exact r.mnemonic.plain_name.not_mem hChar hName
  · exact absurd (by decide) hMarks
  · rw [List.mem_singleton.mp hOpen] at hMarks
    exact absurd (by decide) hMarks
  · rcases mem_joined hColumns with hSep | ⟨part, hPart, hMem⟩
    · exact hMarks (List.Sublist.mem hSep (by decide))
    · obtain ⟨column, hColumn, rfl⟩ := List.mem_map.mp hPart
      exact not_mem_column hColumn hChar (fun hMark => hMarks (List.Sublist.mem hMark (by decide))) hMem
  · rw [List.mem_singleton.mp hClose] at hMarks
    exact absurd (by decide) hMarks

theorem length_columns_ne_arity {r : Instr} (h : r.Consistent) :
    r.columns.length ≠ r.mnemonic.operandForm.arity := by
  cases r with
  | register m rs rt rd shamt funct =>
    change 6 ≠ m.operandForm.arity
    cases m <;> decide
  | immediate m rs rt imm =>
    change 4 ≠ m.operandForm.arity
    cases m <;> decide
  | jump m index =>
    have hFormat : m.format = .jump := h
    change 2 ≠ m.operandForm.arity
    revert hFormat
    cases m <;> decide
  | syscall code => exact (by decide : 3 ≠ 0)

end Instr

/-- The listing has an operand for each column, and no instruction has as many. -/
theorem assembleLine_listing_ne_ok {d : Instr} (hConsistent : d.Consistent) (bases : Bases)
    (words : List Word) : assembleLine bases d.listing ≠ .ok words := by
  intro hWords
  have hComment : '#' ∉ d.listing := d.not_mem_listing (by decide) (by decide)
  rw [assembleLine, stripComment_eq_self hComment, InstrText.read_trim, d.listing_eq] at hWords
  obtain ⟨i, hRead, hExpand⟩ := bind_eq_ok.mp hWords
  obtain ⟨hMnemonic, hLength⟩ := InstrText.length_operands_of_read d.mnemonic.name_ne_nil
    d.mnemonic.plain_name.not_blank d.listed_ne_nil d.trimmed_listed hRead
  obtain ⟨mnemonic, operands⟩ := i
  subst hMnemonic
  rw [Mnemonic.expand_name] at hExpand
  obtain ⟨-, ⟨⟩, hConcrete⟩ := bind_eq_ok.mp hExpand
  obtain - | ⟨hFirst, -⟩ := mapM_eq_ok_iff.mp hConcrete
  obtain ⟨s, hSymbolic, -⟩ := bind_eq_ok.mp hFirst
  obtain ⟨m, hName, hArity⟩ := (SymInstr.reads_of_read_eq hSymbolic).length_operands
  obtain rfl : d.mnemonic = m := Mnemonic.name_inj.mp hName
  apply Instr.length_columns_ne_arity hConsistent
  rw [← d.count_comma_listed, ← hLength]
  exact hArity

theorem disassembly_reassembles (bases : Bases) {w : Word} {d : Instr} (hDecode : Instr.decode w = .ok d) :
    (∀ t, d.assemblerText? = some t →
      ∃ v, d.encode = .ok v ∧ assembleLine bases t = .ok [v] ∧
        (v = w ↔ ¬(Field.opcode.read w = 0x0F ∧ Field.rs.read w ≠ 0)) ∧
        (Field.opcode.read w = 0x0F ∧ Field.rs.read w ≠ 0 → v = w &&& 0xFC1FFFFF)) ∧
    (d.assemblerText? = none ↔
      (∃ m rs rt rd shamt funct, d = .register m rs rt rd shamt funct ∧ shamt ≠ 0) ∨
        ∃ code, d = .syscall code ∧ code ≠ 0) ∧
    ∃ fault, assembleLine bases d.listing = .error fault := by
  refine ⟨fun t hText => ⟨w.canonical, Instr.encode_of_decode hDecode, ?_, ?_, ?_⟩, ?_, ?_⟩
  · exact assembleLine_assemblerText hDecode hText bases
  · exact w.canonical_eq_self_iff
  · rintro ⟨hLui, -⟩
    exact Word.canonical_eq_clear hLui
  · exact d.assemblerText?_eq_none_iff
  · cases hListing : assembleLine bases d.listing with
    | error fault => exact ⟨fault, rfl⟩
    | ok words =>
      exact absurd hListing (assembleLine_listing_ne_ok (Instr.decode_valid hDecode).1 bases words)

theorem disassembly_reassembles_lui :
    Instr.decode 0x3C2A1234 = .ok (.immediate .lui 0 10 0x1234) ∧
      ∃ v, assembleLine {} "lui $t2, 0x1234".toList = .ok [v] ∧ v = 0x3C0A1234 := by
  have hDecode : Instr.decode 0x3C2A1234 = .ok (.immediate .lui 0 10 0x1234) := by decide +kernel
  have hText : (Instr.immediate .lui 0 10 0x1234).assemblerText? = some "lui $t2, 0x1234".toList := by
    decide +kernel
  obtain ⟨v, -, hLine, -, hClear⟩ := (disassembly_reassembles {} hDecode).1 _ hText
  exact ⟨hDecode, v, hLine, hClear (by decide)⟩

end MipsAsm
