import MipsAsm.Proofs.Lines
import MipsAsm.Proofs.Placement
import MipsAsm.Proofs.Rendering

/-!
The assembler's output is a source again: every word of an assembled text segment has assembler text,
and these texts, one on each line, assemble to the same words under any bases.
-/

set_option autoImplicit false

namespace MipsAsm

open Outcome

theorem InstrText.Plain.bare {i : InstrText} (h : i.Plain) : Text.Bare i.render where
  ne_nil := h.wellFormed.render_ne_nil
  trimmed := h.wellFormed.trimmed_render
  not_mem c hc := by
    have hChars : ("\n\r#:\".".toList.all fun c =>
        decide (Text.isOperandChar c = false ∧ c ∉ ", ".toList)) = true := by
      decide
    obtain ⟨hChar, hMark⟩ := of_decide_eq_true (List.all_eq_true.mp hChars c hc)
    exact h.not_mem_render hChar hMark

/-- The instruction text is that of the word, and assembles to it wherever it stands. -/
structure Disassembles (w : Word) (i : InstrText) : Prop where
  text : ∃ d, Instr.decode w = .ok d ∧ d.toInstrText? = some i
  plain : i.Plain
  word : ∃ s, SymInstr.Reads i s ∧ ∀ symbols address, s.word symbols address = .ok w

/-- Every word of a valid symbolic instruction has instruction text. -/
theorem SymInstr.Valid.exists_disassembles {s : SymInstr} (hValid : s.Valid) {symbols : Symbols}
    {address w : Word} (h : s.word symbols address = .ok w) : ∃ i, Disassembles w i := by
  obtain ⟨d, hResolve, hEncode⟩ := bind_eq_ok.mp h
  obtain ⟨hConsistent, hFits, hCanonical, hText⟩ := hValid.writable_of_resolve hResolve
  obtain ⟨i, hInstr⟩ := Option.isSome_iff_exists.mp hText
  have hDecode : Instr.decode w = .ok d := by
    rw [Instr.decode_of_encode hEncode, hCanonical]
  exact ⟨i, ⟨d, hDecode, hInstr⟩, Instr.toInstrText?_plain hFits hCanonical hInstr,
    Instr.exists_reads_word hConsistent hFits hCanonical hInstr hEncode⟩

namespace Layout

theorem step_of_writes {line : SourceLine} {i : InstrText} (hLine : line.Writes i) {s : SymInstr}
    (hReads : SymInstr.Reads i s) {l : Layout} (hText : l.segment = .text) :
    l.step line = .ok (l.emitInstr line.site s) := by
  obtain ⟨site, label, statement⟩ := line
  obtain ⟨rfl, rfl⟩ : label = none ∧ statement = some (.instr i) := hLine
  refine bind_eq_ok.mpr ⟨l, rfl, ?_⟩
  simp only [emit, hText]
  refine bind_eq_ok.mpr ⟨[i], hReads.expand_eq, ?_⟩
  simp [hReads.read_eq]

/-- A run over lines that write the instructions of some words places these words and nothing else. -/
theorem foldlM_of_writes {lines : List SourceLine} {instrs : List InstrText} {words : List Word}
    (hLines : List.Forall₂ SourceLine.Writes lines instrs)
    (hWords : List.Forall₂ Disassembles words instrs) {l : Layout} (hText : l.segment = .text) :
    ∃ l' placed, lines.foldlM (fun l line => Diagnostic.locate line.site (l.step line)) l = .ok l' ∧
      l'.symbols = l.symbols ∧ l'.data = l.data ∧ l'.text.toList = l.text.toList ++ placed ∧
      List.Forall₂ (fun (p : Placed) w => ∀ symbols, p.instr.word symbols p.address = .ok w) placed words := by
  induction hLines generalizing words l with
  | nil =>
    cases hWords
    exact ⟨l, [], rfl, rfl, rfl, (List.append_nil _).symm, .nil⟩
  | @cons line i lines instrs hLine _ ih =>
    obtain ⟨w, rest, hWord, hRest, rfl⟩ := List.forall₂_cons_right_iff.mp hWords
    obtain ⟨s, hReads, hs⟩ := hWord.word
    obtain ⟨l', placed, hRun, hSymbols, hData, hPlaced, hAll⟩ :=
      ih hRest (l := l.emitInstr line.site s) hText
    refine ⟨l', ⟨l.textNext, line.site, s⟩ :: placed, ?_, hSymbols, hData, ?_, ?_⟩
    · rw [List.foldlM_cons]
      exact bind_eq_ok.mpr ⟨_, locate_eq_ok.mpr (step_of_writes hLine hReads hText), hRun⟩
    · rw [hPlaced]
      simp [emitInstr]
    · exact .cons (fun symbols => hs symbols l.textNext) hAll

end Layout

/-- The texts of some words, one on each line, assemble to the words. -/
theorem assemble_joined {words : List Word} {instrs : List InstrText}
    (h : List.Forall₂ Disassembles words instrs) (bases : Bases) :
    assemble bases (Text.joined ['\n'] (instrs.map InstrText.render)) = .ok ⟨words, [], .empty⟩ := by
  have hRead : List.Forall₂ (fun part i => Text.Bare part ∧ InstrText.read part = .ok i)
      (instrs.map InstrText.render) instrs := by
    rw [List.forall₂_map_left_iff, List.forall₂_same]
    intro i hi
    obtain ⟨w, hWord⟩ := exists_of_forall₂ h.flip hi
    exact ⟨hWord.plain.bare, hWord.plain.wellFormed.read_render⟩
  obtain ⟨lines, hLines, hWrites⟩ := SourceLine.readAll_joined hRead
  obtain ⟨layout, placed, hRun, hSymbols, hData, hPlaced, hWords⟩ :=
    Layout.foldlM_of_writes hWrites h (l := .start bases) rfl
  have hLayoutWords : layout.words = .ok words := by
    rw [Layout.words, hPlaced]
    exact mapM_eq_ok_iff.mpr (hWords.imp (fun p w hWord => locate_eq_ok.mpr (hWord _)))
  refine bind_eq_ok.mpr ⟨lines, hLines, bind_eq_ok.mpr ⟨layout, hRun, ?_⟩⟩
  refine bind_eq_ok.mpr ⟨words, hLayoutWords, ?_⟩
  rw [hSymbols, hData]
  rfl

theorem assembled_text_is_source {bases : Bases} {source : Text} {image : Image}
    (h : assemble bases source = .ok image) :
    ∃ lines, List.Forall₂ (fun w line => ∃ d, Instr.decode w = .ok d ∧ d.assemblerText? = some line)
        image.text lines ∧
      ∀ bases', assemble bases' (Text.joined ['\n'] lines) = .ok ⟨image.text, [], .empty⟩ := by
  obtain ⟨sourceLines, -, layout, hTracks, -, -, hWords⟩ := exists_tracks h
  have hEach : ∀ w ∈ image.text, ∃ i, Disassembles w i := by
    intro w hw
    obtain ⟨k, hk⟩ := List.mem_iff_getElem?.mp hw
    obtain ⟨p, hp, hWord⟩ := exists_getElem?_of_forall₂ hWords.flip hk
    obtain ⟨i, -, hRead⟩ := exists_getElem?_of_forall₂ hTracks.text.read.flip hp
    exact (SymInstr.reads_of_read_eq hRead).valid.exists_disassembles hWord
  obtain ⟨instrs, hInstrs⟩ := exists_forall₂ hEach
  refine ⟨instrs.map InstrText.render, ?_, fun bases' => assemble_joined hInstrs bases'⟩
  rw [List.forall₂_map_right_iff]
  refine hInstrs.imp (fun w i hWord => ?_)
  obtain ⟨d, hDecode, hText⟩ := hWord.text
  exact ⟨d, hDecode, Option.map_eq_some_iff.mpr ⟨i, hText, rfl⟩⟩

theorem assembled_text_is_source_loop :
    let source := ".data\nm: .asciiz \"a\"\n.text\na: la $t0, m\nblt $t0, $t1, a\nj a".toList
    let words : List Word := [0x3C011001, 0x34280000, 0x0109082A, 0x1420FFFC, 0x08100000]
    ∃ image lines, assemble {} source = .ok image ∧ image.text = words ∧ image.data = [0x61] ∧
      List.Forall₂ (fun w line => ∃ d, Instr.decode w = .ok d ∧ d.assemblerText? = some line) words lines ∧
      assemble ⟨0xFFFFFFFC, 0⟩ (Text.joined ['\n'] lines) = .ok ⟨words, [], .empty⟩ := by
  intro source words
  have hAssemble : ∃ image,
      assemble {} ".data\nm: .asciiz \"a\"\n.text\na: la $t0, m\nblt $t0, $t1, a\nj a".toList = .ok image ∧
      image.text = words ∧ image.data = [0x61] := ⟨_, rfl, rfl, rfl⟩
  obtain ⟨image, hImage, hText, hData⟩ := hAssemble
  obtain ⟨lines, hLines, hAgain⟩ := assembled_text_is_source hImage
  rw [hText] at hLines hAgain
  exact ⟨image, lines, hImage, hText, hData, hLines, hAgain _⟩

end MipsAsm
