import MipsAsm.Proofs.Closure
import MipsAsm.Proofs.Effects
import MipsAsm.Proofs.HexFiles
import MipsAsm.Proofs.Reassembly
import MipsAsm.Proofs.Resolvability

/-!
Runs of `mips-disasm`. All of the words that are given become lines, one each and in their order, or the
run fails and leaves everything as it was. The lines made for an assembled text segment are a source of
that segment.
-/

set_option autoImplicit false

namespace MipsAsm

open Outcome Text

theorem assemble_of_sites {source source' : Text} (h : SourceLine.sites source = SourceLine.sites source')
    (bases : Bases) : assemble bases source = assemble bases source' := by
  rw [assemble, assemble, SourceLine.readAll, SourceLine.readAll, h]

theorem exists_disassembles {bases : Bases} {source : Text} {image : Image}
    (h : assemble bases source = .ok image) : ∃ instrs, List.Forall₂ Disassembles image.text instrs := by
  obtain ⟨lines, -, layout, hTracks, -, -, hWords⟩ := exists_tracks h
  apply exists_forall₂
  intro w hw
  obtain ⟨k, hk⟩ := List.mem_iff_getElem?.mp hw
  obtain ⟨p, hp, hWord⟩ := exists_getElem?_of_forall₂ hWords.flip hk
  obtain ⟨i, hReads⟩ := (hTracks.emits_of_getElem? hp).1.exists_reads
  exact hReads.valid.exists_disassembles hWord

/-- The texts of some words, each with its line feed, assemble to the words. -/
theorem assemble_unlines {words : List Word} {instrs : List InstrText}
    (h : List.Forall₂ Disassembles words instrs) (bases : Bases) :
    assemble bases (unlines (instrs.map InstrText.render)) = .ok ⟨words, [], .empty⟩ := by
  have hFeed : ∀ part ∈ instrs.map InstrText.render, '\n' ∉ part := by
    intro part hPart
    obtain ⟨i, hi, rfl⟩ := List.mem_map.mp hPart
    obtain ⟨w, hWord⟩ := exists_of_forall₂ h.flip hi
    exact hWord.plain.bare.not_mem '\n' (by decide)
  rw [← assemble_joined h bases]
  apply assemble_of_sites
  rw [SourceLine.sites_unlines hFeed, SourceLine.sites_joined hFeed]

/-- The words that are given, as texts. -/
def WordSource.texts {σ : Type} [FileStore σ] (store : σ) : WordSource → Except IoError (List Text)
  | arguments words => .ok words
  | file path => (FileStore.readText store path).map HexFile.wordLines

/-- The text is the word of an instruction. -/
def Decodes (t : Text) (decoded : Word × Instr) : Prop :=
  Word.written t = .ok decoded.1 ∧ Instr.decode decoded.1 = .ok decoded.2

/-- The line for a word: the assembler's text if that is asked for and there is one, else the listing. -/
inductive Shows (assembler : Bool) (t : Text) : Text → Prop
  | text {decoded : Word × Instr} {line : Text} (hDecodes : Decodes t decoded)
      (hAsked : assembler = true) (hText : decoded.2.assemblerText? = some line) : Shows assembler t line
  | listing {decoded : Word × Instr} (hDecodes : Decodes t decoded)
      (hNone : assembler = true → decoded.2.assemblerText? = none) : Shows assembler t decoded.2.listing

/-- Where a run leaves what it has to show: it is printed, or written to a file unless that fails. -/
inductive Delivers {σ : Type} [FileStore σ] (store : σ) (shown : Text) : Option Path → Outcome → σ → Prop
  | printed {outcome : Outcome} (hExit : outcome.exit = 0) (hShown : outcome.stdout = shown) :
      Delivers store shown none outcome store
  | written {path : Path} {outcome : Outcome} {final : σ}
      (hWrite : FileStore.writeText store path shown = .ok final) (hExit : outcome.exit = 0)
      (hSilent : outcome.stdout = []) : Delivers store shown (some path) outcome final
  | blocked {path : Path} {outcome : Outcome} {e : IoError}
      (hWrite : FileStore.writeText store path shown = .error e) (hExit : outcome.exit = 1)
      (hSilent : outcome.stdout = []) : Delivers store shown (some path) outcome store

namespace DisassembleCommand

/-- What scanned arguments ask for. -/
structure Asks (a : Arguments) (c : DisassembleCommand) : Prop where
  assembler : c.assembler = true ↔ a.value? "asm" ≠ none
  format : c.format = .text ↔ ∀ value ∈ a.value? "format", value = "text".toList
  out : c.out = a.value? "out"
  source : (∃ path, a.value? "file" = some path ∧ a.positionals = [] ∧ c.source = .file path) ∨
    a.value? "file" = none ∧ a.positionals ≠ [] ∧ c.source = .arguments a.positionals

theorem format_of_formatOf {a : Arguments} {format : OutputFormat} (h : formatOf a = .ok format) :
    format = .text ↔ ∀ value ∈ a.value? "format", value = "text".toList := by
  unfold formatOf at h
  cases hValue : a.value? "format" with
  | none =>
    rw [hValue] at h
    cases h
    exact iff_of_true rfl nofun
  | some value =>
    simp only [hValue] at h
    split at h
    · rename_i hText
      cases h
      exact iff_of_true rfl fun other hOther => Option.some.inj hOther ▸ hText
    split at h
    · rename_i hText _
      cases h
      exact iff_of_false nofun fun hAll => hText (hAll value rfl)
    · cases h

theorem source_of_sourceOf {a : Arguments} {source : WordSource} (h : sourceOf a = .ok source) :
    (∃ path, a.value? "file" = some path ∧ a.positionals = [] ∧ source = .file path) ∨
      a.value? "file" = none ∧ a.positionals ≠ [] ∧ source = .arguments a.positionals := by
  obtain ⟨file, hFile, h⟩ := bind_eq_ok.mp h
  obtain rfl := Arguments.value?_of_path? hFile
  split at h
  · rename_i path hPath hNone
    cases h
    exact .inl ⟨path, hPath, hNone, rfl⟩
  · cases h
  · cases h
  · rename_i hPath hSome
    cases h
    exact .inr ⟨hPath, hSome, rfl⟩

theorem exists_asks {arguments : List Text} {c : DisassembleCommand} (h : ofArguments arguments = .ok c) :
    ∃ a, Arguments.scan kinds {} arguments = .ok a ∧ Asks a c := by
  obtain ⟨a, hScan, h⟩ := bind_eq_ok.mp h
  obtain ⟨source, hSource, h⟩ := bind_eq_ok.mp h
  obtain ⟨format, hFormat, h⟩ := bind_eq_ok.mp h
  obtain ⟨out, hOut, h⟩ := bind_eq_ok.mp h
  cases h
  exact ⟨a, hScan, Option.isSome_iff_ne_none, format_of_formatOf hFormat,
    (Arguments.value?_of_path? hOut).symm, source_of_sourceOf hSource⟩

section Running

variable {σ : Type} [FileStore σ] (c : DisassembleCommand) (store : σ)

/-- The words that are given, or the failure to read one of them. -/
def words : WordSource → Except Failure (List Word)
  | .arguments words => words.mapM wordOf
  | .file path => HexFile.ofContent path (FileStore.readText store path)

theorem job_run : c.job.run store = Job.performAll store (c.effects (words store c.source)) := by
  rw [job]
  cases c.source <;> rfl

variable {store}

theorem words_eq_ok_iff {source : WordSource} {ws : List Word} :
    words store source = .ok ws ↔
      ∃ texts, source.texts store = .ok texts ∧ List.Forall₂ (fun t w => Word.written t = .ok w) texts ws := by
  cases source with
  | arguments texts =>
    simp only [words, wordOf, mapM_eq_ok_iff, mapError_eq_ok, WordSource.texts]
    constructor
    · exact fun hWords => ⟨texts, rfl, hWords⟩
    · rintro ⟨_, ⟨⟩, hWords⟩
      exact hWords
  | file path =>
    simp only [words, HexFile.ofContent, bind_eq_ok, mapError_eq_ok, HexFile.parse_eq_ok_iff, WordSource.texts,
      map_eq_ok]
    constructor
    · rintro ⟨t, hRead, hWords⟩
      exact ⟨_, ⟨t, hRead, rfl⟩, hWords⟩
    · rintro ⟨_, ⟨t, hRead, rfl⟩, hWords⟩
      exact ⟨t, hRead, hWords⟩

theorem decodeWord_eq_ok_iff {w : Word} {decoded : Word × Instr} :
    decodeWord w = .ok decoded ↔ decoded.1 = w ∧ Instr.decode w = .ok decoded.2 := by
  rw [decodeWord, mapError_eq_ok, map_eq_ok]
  constructor
  · rintro ⟨r, hDecode, rfl⟩
    exact ⟨rfl, hDecode⟩
  · rintro ⟨rfl, hDecode⟩
    exact ⟨decoded.2, hDecode, rfl⟩

/-- The one effect of a run that does not fail. -/
def delivery (shown : Text) : Effect :=
  match c.out with
  | some path => .write path shown []
  | none => .print shown

theorem effects_eq_ok_iff {es : List Effect} :
    c.effects (words store c.source) = .ok es ↔
      ∃ texts decoded, c.source.texts store = .ok texts ∧ List.Forall₂ Decodes texts decoded ∧
        es = [c.delivery (c.render decoded)] := by
  have hPlan (given : Except Failure (List Word)) : c.effects given = .ok es ↔
      ∃ ws, given = .ok ws ∧ ∃ decoded, ws.mapM decodeWord = .ok decoded ∧
        es = [c.delivery (c.render decoded)] := by
    rw [effects, bind_eq_ok]
    refine exists_congr fun ws => and_congr_right fun _ => ?_
    rw [bind_eq_ok]
    refine exists_congr fun decoded => and_congr_right fun _ => ?_
    rw [delivery]
    cases c.out with
    | none => exact pure_eq_ok.trans eq_comm
    | some path => exact pure_eq_ok.trans eq_comm
  have hDecodes (t : Text) (decoded : Word × Instr) :
      (∃ w, Word.written t = .ok w ∧ decodeWord w = .ok decoded) ↔ Decodes t decoded := by
    simp only [decodeWord_eq_ok_iff]
    constructor
    · rintro ⟨_, hWord, rfl, hDecode⟩
      exact ⟨hWord, hDecode⟩
    · rintro ⟨hWord, hDecode⟩
      exact ⟨decoded.1, hWord, rfl, hDecode⟩
  rw [hPlan]
  constructor
  · rintro ⟨ws, hWords, decoded, hDecoded, hEffects⟩
    obtain ⟨texts, hTexts, hWritten⟩ := words_eq_ok_iff.mp hWords
    have hAll := forall₂_comp.mp ⟨ws, hWritten, mapM_eq_ok_iff.mp hDecoded⟩
    exact ⟨texts, decoded, hTexts, hAll.imp fun t d => (hDecodes t d).mp, hEffects⟩
  · rintro ⟨texts, decoded, hTexts, hAll, hEffects⟩
    obtain ⟨ws, hWritten, hDecoded⟩ := forall₂_comp.mpr (hAll.imp fun t d => (hDecodes t d).mpr)
    exact ⟨ws, words_eq_ok_iff.mpr ⟨texts, hTexts, hWritten⟩, decoded, mapM_eq_ok_iff.mpr hDecoded, hEffects⟩

variable (store)

/-- A run shows all of its words, or it fails before it has done anything. -/
theorem run_cases :
    (∃ texts decoded, c.source.texts store = .ok texts ∧ List.Forall₂ Decodes texts decoded ∧
      c.job.run store = Job.perform store [] [c.delivery (c.render decoded)]) ∨
    (¬∃ texts, c.source.texts store = .ok texts ∧ ∀ t ∈ texts, ∃ decoded, Decodes t decoded) ∧
      ∃ failure, c.job.run store = (.failed [] failure, store) := by
  rw [job_run]
  cases hEffects : c.effects (words store c.source) with
  | ok es =>
    obtain ⟨texts, decoded, hTexts, hDecoded, rfl⟩ := c.effects_eq_ok_iff.mp hEffects
    exact .inl ⟨texts, decoded, hTexts, hDecoded, rfl⟩
  | error failure =>
    refine .inr ⟨?_, failure, rfl⟩
    rintro ⟨texts, hTexts, hAll⟩
    obtain ⟨decoded, hDecoded⟩ := exists_forall₂ hAll
    rw [c.effects_eq_ok_iff.mpr ⟨texts, decoded, hTexts, hDecoded, rfl⟩] at hEffects
    cases hEffects

theorem perform_delivery (shown : Text) :
    ∃ outcome final, Job.perform store [] [c.delivery shown] = (outcome, final) ∧
      Delivers store shown c.out outcome final := by
  rw [delivery]
  cases c.out with
  | none => exact ⟨_, _, rfl, .printed rfl rfl⟩
  | some path =>
    simp only [Job.perform]
    cases hWrite : FileStore.writeText store path shown with
    | ok final => exact ⟨_, final, rfl, .written hWrite rfl rfl⟩
    | error e => exact ⟨_, store, rfl, .blocked hWrite rfl rfl⟩

end Running

theorem shows_lineOf {t : Text} {decoded : Word × Instr} (h : Decodes t decoded) (assembler : Bool) :
    Shows assembler t (lineOf assembler decoded.2) := by
  rw [lineOf]
  cases assembler with
  | false => exact .listing h nofun
  | true =>
    cases hText : decoded.2.assemblerText? with
    | none => exact .listing h fun _ => hText
    | some line => exact .text h rfl hText

theorem feed_not_mem_lineOf {t : Text} {decoded : Word × Instr} (h : Decodes t decoded) (assembler : Bool) :
    '\n' ∉ lineOf assembler decoded.2 := by
  have hListing : '\n' ∉ decoded.2.listing := decoded.2.not_mem_listing (by decide) (by decide)
  rw [lineOf]
  cases assembler with
  | false => exact hListing
  | true =>
    cases hText : decoded.2.assemblerText? with
    | none => exact hListing
    | some line =>
      obtain ⟨-, hFits, hCanonical⟩ := Instr.decode_valid h.2
      obtain ⟨i, hInstr, rfl⟩ := Option.map_eq_some_iff.mp hText
      exact (Instr.toInstrText?_plain hFits hCanonical hInstr).not_mem_render (by decide) (by decide)

theorem lines_of_disassembles {words : List Word} {instrs : List InstrText}
    (h : List.Forall₂ Disassembles words instrs) {decoded : List (Word × Instr)}
    (hDecoded : List.Forall₂ Decodes (words.map Word.hex) decoded) :
    decoded.map (fun d => lineOf true d.2) = instrs.map InstrText.render := by
  induction h generalizing decoded with
  | nil =>
    cases hDecoded
    rfl
  | @cons w i words instrs hHead _ ih =>
    obtain ⟨d, rest, ⟨hWord, hDecode⟩, hRest, rfl⟩ := List.forall₂_cons_left_iff.mp hDecoded
    obtain ⟨r, hRecord, hText⟩ := hHead.text
    rw [w.written_hex] at hWord
    obtain rfl := Except.ok.inj hWord
    obtain rfl := Except.ok.inj (hRecord.symm.trans hDecode)
    rw [List.map_cons, List.map_cons, ih hRest, lineOf, if_pos rfl, Instr.assemblerText?, hText]
    rfl

theorem exists_decodes {words : List Word} {instrs : List InstrText}
    (h : List.Forall₂ Disassembles words instrs) : ∀ t ∈ words.map Word.hex, ∃ decoded, Decodes t decoded := by
  intro t ht
  obtain ⟨w, hw, rfl⟩ := List.mem_map.mp ht
  obtain ⟨i, hWord⟩ := exists_of_forall₂ h hw
  obtain ⟨r, hRecord, -⟩ := hWord.text
  exact ⟨(w, r), w.written_hex, hRecord⟩

/-- The lines of the text output. -/
theorem exists_lines {c : DisassembleCommand} (hFormat : c.format = .text) {texts : List Text}
    {decoded : List (Word × Instr)} (h : List.Forall₂ Decodes texts decoded) :
    ∃ lines, c.render decoded = lines.flatMap (· ++ ['\n']) ∧ (∀ line ∈ lines, '\n' ∉ line) ∧
      List.Forall₂ (Shows c.assembler) texts lines := by
  refine ⟨decoded.map fun d => lineOf c.assembler d.2, ?_, ?_, ?_⟩
  · rw [render, hFormat]
    rfl
  · intro line hLine
    obtain ⟨d, hd, rfl⟩ := List.mem_map.mp hLine
    obtain ⟨t, hDecodes⟩ := exists_of_forall₂ h.flip hd
    exact feed_not_mem_lineOf hDecodes c.assembler
  · rw [List.forall₂_map_right_iff]
    exact h.imp fun t d hDecodes => shows_lineOf hDecodes c.assembler

theorem render_of_disassembles {c : DisassembleCommand} (hAssembler : c.assembler = true)
    (hFormat : c.format = .text) {words : List Word} {instrs : List InstrText}
    (h : List.Forall₂ Disassembles words instrs) {decoded : List (Word × Instr)}
    (hDecoded : List.Forall₂ Decodes (words.map Word.hex) decoded) :
    c.render decoded = unlines (instrs.map InstrText.render) := by
  rw [render, hFormat, hAssembler, ← lines_of_disassembles h hDecoded]

theorem run_eq {σ : Type} [FileStore σ] {arguments : List Text} {c : DisassembleCommand}
    (h : ofArguments arguments = .ok c) (store : σ) :
    Command.disassemble.run arguments store = c.job.run store := by
  rw [Command.run, Command.job, h]
  rfl

end DisassembleCommand

open DisassembleCommand in
/-- Of words that cannot all be read and decoded nothing is shown and no file changes. Otherwise the output
has the line of each word, in their order. The lines of an assembled text segment assemble to it again, and a
run of `asm` over them writes it again. -/
theorem disassembly_is_all_or_nothing {σ : Type} [FileStore σ] {arguments : List Text}
    {c : DisassembleCommand} (h : ofArguments arguments = .ok c) (store : σ) :
    (∃ a, Arguments.scan kinds {} arguments = .ok a ∧ Asks a c) ∧
    ∃ outcome final, Command.disassemble.run arguments store = (outcome, final) ∧
      ((∀ texts, c.source.texts store = .ok texts → ∃ t ∈ texts, ∀ decoded, ¬Decodes t decoded) →
        outcome.exit = 1 ∧ outcome.stdout = [] ∧ final = store) ∧
      (∀ texts, c.source.texts store = .ok texts → (∀ t ∈ texts, ∃ decoded, Decodes t decoded) →
        ∃ shown, Delivers store shown c.out outcome final ∧
          (c.format = .text → ∃ lines, shown = lines.flatMap (· ++ ['\n']) ∧
            (∀ line ∈ lines, '\n' ∉ line) ∧ List.Forall₂ (Shows c.assembler) texts lines)) ∧
      ∀ bases source image path, assemble bases source = .ok image → c.source = .file path →
        FileStore.readText store path = .ok (image.text.flatMap fun w => w.hex ++ ['\n']) →
        c.assembler = true → c.format = .text →
        ∃ shown, Delivers store shown c.out outcome final ∧
          ∀ bases', assemble bases' shown = .ok ⟨image.text, [], .empty⟩ ∧
            ∀ (later final' : σ) arguments' input outDir symbols outcome',
              AssembleCommand.ofArguments arguments' = .ok (.file bases' input outDir symbols) →
              FileStore.readText later input = .ok shown →
              Command.assemble.run arguments' later = (outcome', final') →
              FileStore.WrittenInOrder later
                (AssembleCommand.artifacts input outDir symbols ⟨image.text, [], .empty⟩) outcome'.exit final' := by
  refine ⟨exists_asks h, ?_⟩
  rw [run_eq h]
  have hArtifact {bases : Bases} {source : Text} {image : Image} {path : Path}
      (hImage : assemble bases source = .ok image) (hSource : c.source = .file path)
      (hFile : FileStore.readText store path = .ok (image.text.flatMap fun w => w.hex ++ ['\n'])) :
      c.source.texts store = .ok (image.text.map Word.hex) ∧
        ∃ instrs, List.Forall₂ Disassembles image.text instrs := by
    refine ⟨?_, exists_disassembles hImage⟩
    rw [hSource, WordSource.texts, hFile, ← HexFile.render_eq, ← HexFile.wordLines_render]
    rfl
  obtain ⟨texts, decoded, hTexts, hDecoded, hRun⟩ | ⟨hNot, failure, hRun⟩ := c.run_cases store
  · obtain ⟨outcome, final, hPerform, hDelivers⟩ := c.perform_delivery store (c.render decoded)
    refine ⟨outcome, final, hRun.trans hPerform, ?_, ?_, ?_⟩
    · intro hBad
      obtain ⟨t, ht, hNone⟩ := hBad texts hTexts
      obtain ⟨d, hDecodes⟩ := exists_of_forall₂ hDecoded ht
      exact absurd hDecodes (hNone d)
    · intro texts' hTexts' _
      obtain rfl := Except.ok.inj (hTexts.symm.trans hTexts')
      exact ⟨_, hDelivers, fun hFormat => exists_lines hFormat hDecoded⟩
    · intro bases source image path hImage hSource hFile hAssembler hFormat
      obtain ⟨hWords, instrs, hInstrs⟩ := hArtifact hImage hSource hFile
      obtain rfl := Except.ok.inj (hTexts.symm.trans hWords)
      rw [render_of_disassembles hAssembler hFormat hInstrs hDecoded] at hDelivers
      refine ⟨_, hDelivers, fun bases' => ⟨assemble_unlines hInstrs bases', ?_⟩⟩
      intro later final' arguments' input outDir symbols outcome' hAccepted hRead hRun'
      obtain ⟨outcome, final, hAgain, -, hWritten⟩ :=
        AssembleCommand.exists_run_file hRead (assemble_unlines hInstrs bases')
      rw [AssembleCommand.run_eq hAccepted, hAgain] at hRun'
      cases hRun'
      exact hWritten
  · refine ⟨_, store, hRun, fun _ => ⟨rfl, rfl, rfl⟩, ?_, ?_⟩
    · intro texts hTexts hAll
      exact absurd ⟨texts, hTexts, hAll⟩ hNot
    · intro bases source image path hImage hSource hFile _ _
      obtain ⟨hWords, instrs, hInstrs⟩ := hArtifact hImage hSource hFile
      exact absurd ⟨_, hWords, exists_decodes hInstrs⟩ hNot

theorem disassembly_is_all_or_nothing_loop :
    ∃ (store middle final : Tree) (image : Image) (outcome outcome' : Outcome),
      assemble {} "a: addiu $t0, $t0, -1\nbne $t0, $zero, a".toList = .ok image ∧
      image.text = [0x2508FFFF, 0x1500FFFE] ∧
      FileStore.readText store "a.text".toList = .ok (image.text.flatMap fun w => w.hex ++ ['\n']) ∧
      Command.disassemble.run (["--asm", "--file", "a.text", "--out", "b.asm"].map String.toList) store =
        (outcome, middle) ∧ outcome.exit = 0 ∧
      Command.assemble.run (["b.asm", "--text-base", "0xFFFFFFFC"].map String.toList) middle =
        (outcome', final) ∧ outcome'.exit = 0 ∧
      FileStore.readText final "b.asm.text".toList = FileStore.readText store "a.text".toList := by
  have hAssemble : ∃ image, assemble {} "a: addiu $t0, $t0, -1\nbne $t0, $zero, a".toList = .ok image ∧
      image.text = [0x2508FFFF, 0x1500FFFE] := ⟨_, rfl, rfl⟩
  obtain ⟨image, hImage, hWords⟩ := hAssemble
  generalize hHex : (image.text.flatMap fun w => w.hex ++ ['\n']) = hex
  have hFile : FileStore.readText (⟨[], [(["a.text".toList], .file (FileStore.encodeText hex))]⟩ : Tree)
      "a.text".toList = .ok hex := bind_eq_ok.mpr ⟨_, rfl, FileStore.decodeText_encodeText _⟩
  have hAccepted : DisassembleCommand.ofArguments
      (["--asm", "--file", "a.text", "--out", "b.asm"].map String.toList) =
        .ok ⟨.file "a.text".toList, true, .text, some "b.asm".toList⟩ := rfl
  have hAccepted' : AssembleCommand.ofArguments
      (["b.asm", "--text-base", "0xFFFFFFFC"].map String.toList) =
        .ok (.file ⟨0xFFFFFFFC, 0x10010000⟩ "b.asm".toList none none) := rfl
  obtain ⟨-, outcome, middle, hRun, -, -, hAgain⟩ := disassembly_is_all_or_nothing hAccepted
    (⟨[], [(["a.text".toList], .file (FileStore.encodeText hex))]⟩ : Tree)
  obtain ⟨shown, hDelivers, hSource⟩ :=
    hAgain {} _ image "a.text".toList hImage rfl (hHex ▸ hFile) rfl rfl
  cases hDelivers with
  | blocked hWrite => cases hWrite
  | written hWrite hExit =>
    have hShown : FileStore.readText middle "b.asm".toList = .ok shown := by
      cases hWrite
      exact bind_eq_ok.mpr ⟨_, rfl, FileStore.decodeText_encodeText _⟩
    cases hAsm : Command.assemble.run (["b.asm", "--text-base", "0xFFFFFFFC"].map String.toList) middle with
    | mk outcome' final =>
      have hWritten := (hSource _).2 middle final _ _ _ _ outcome' hAccepted' hShown hAsm
      have hAll : ∃ last, FileStore.writeAll middle
          (AssembleCommand.artifacts "b.asm".toList none none ⟨image.text, [], .empty⟩) = .ok last ∧
          FileStore.readText last "b.asm.text".toList = .ok hex := by
        rw [← hHex]
        cases hWrite
        exact ⟨_, rfl, bind_eq_ok.mpr ⟨_, rfl, FileStore.decodeText_encodeText _⟩⟩
      obtain ⟨last, hAll, hAgain⟩ := hAll
      obtain ⟨hDone, rfl⟩ := hWritten.unique (.all hAll)
      exact ⟨_, middle, final, image, outcome, outcome', hImage, hWords, hHex ▸ hFile, hRun, hExit, hAsm, hDone,
        hAgain.trans hFile.symm⟩

end MipsAsm
