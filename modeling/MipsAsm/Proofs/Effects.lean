import MipsAsm.Command.Basic
import MipsAsm.Proofs.Files
import MipsAsm.Proofs.SymbolFile

/-!
What jobs do to files. Effects are performed in order until a write fails, so a job ends with a front part
of its writes made, and the first of the others, if there is one, fails on the files that are left. The
command `asm` writes nothing before its input has been read and assembled.
-/

set_option autoImplicit false

namespace MipsAsm

open Outcome

namespace Effect

def printed : Effect → Text
  | print t => t
  | write _ _ _ => []

def write? : Effect → Option (Path × Text)
  | print _ => none
  | write path content _ => some (path, content)

end Effect

namespace FileStore

variable {σ : Type} [FileStore σ]

/-- Makes writes in order, each to the files that the writes before it leave. -/
def writeAll (store : σ) (writes : List (Path × Text)) : Except IoError σ :=
  writes.foldlM (fun now w => writeText now w.1 w.2) store

/-- Writes are made in order, to the last of them or up to one that fails; the exit code tells which. -/
inductive WrittenInOrder (store : σ) (writes : List (Path × Text)) : Nat → σ → Prop
  | all {final : σ} (hAll : writeAll store writes = .ok final) : WrittenInOrder store writes 0 final
  | stopped {done more : List (Path × Text)} {path : Path} {content : Text} {final : σ} {e : IoError}
      (hWrites : writes = done ++ (path, content) :: more) (hDone : writeAll store done = .ok final)
      (hFails : writeText final path content = .error e) : WrittenInOrder store writes 1 final

namespace WrittenInOrder

variable {store next final final' : σ} {writes : List (Path × Text)} {path : Path} {content : Text}
  {exit exit' : Nat}

theorem cons (hWrite : writeText store path content = .ok next) (h : WrittenInOrder next writes exit final) :
    WrittenInOrder store ((path, content) :: writes) exit final := by
  cases h with
  | all hAll => exact .all (bind_eq_ok.mpr ⟨next, hWrite, hAll⟩)
  | stopped hWrites hDone hFails =>
    rw [hWrites, ← List.cons_append]
    exact .stopped rfl (bind_eq_ok.mpr ⟨next, hWrite, hDone⟩) hFails

theorem cons_cases (h : WrittenInOrder store ((path, content) :: writes) exit final) :
    (∃ e, writeText store path content = .error e ∧ exit = 1 ∧ final = store) ∨
      ∃ next, writeText store path content = .ok next ∧ WrittenInOrder next writes exit final := by
  cases h with
  | all hAll =>
    obtain ⟨next, hWrite, hRest⟩ := bind_eq_ok.mp hAll
    exact .inr ⟨next, hWrite, .all hRest⟩
  | @stopped done more path' content' _ e hWrites hDone hFails =>
    cases done with
    | nil =>
      cases hWrites
      cases hDone
      exact .inl ⟨e, hFails, rfl, rfl⟩
    | cons first done =>
      cases hWrites
      obtain ⟨next, hWrite, hRest⟩ := bind_eq_ok.mp hDone
      exact .inr ⟨next, hWrite, .stopped rfl hRest hFails⟩

theorem nil_eq (h : WrittenInOrder store [] exit final) : exit = 0 ∧ final = store := by
  cases h with
  | all hAll =>
    cases hAll
    exact ⟨rfl, rfl⟩
  | stopped hWrites => simp at hWrites

theorem unique (h : WrittenInOrder store writes exit final) (h' : WrittenInOrder store writes exit' final') :
    exit = exit' ∧ final = final' := by
  induction writes generalizing store with
  | nil =>
    obtain ⟨rfl, rfl⟩ := h.nil_eq
    obtain ⟨rfl, rfl⟩ := h'.nil_eq
    exact ⟨rfl, rfl⟩
  | cons first writes ih =>
    obtain ⟨e, hFails, rfl, rfl⟩ | ⟨next, hWrite, hRest⟩ := h.cons_cases
    · obtain ⟨-, -, rfl, rfl⟩ | ⟨next, hWrite, -⟩ := h'.cons_cases
      · exact ⟨rfl, rfl⟩
      · cases hFails.symm.trans hWrite
    · obtain ⟨e, hFails, -, -⟩ | ⟨next', hWrite', hRest'⟩ := h'.cons_cases
      · cases hWrite.symm.trans hFails
      · cases hWrite.symm.trans hWrite'
        exact ih hRest hRest'

end WrittenInOrder

end FileStore

namespace Job

variable {σ : Type} [FileStore σ]

/-- A job makes its writes in order until one fails, and prints what stands before that one. -/
theorem exists_perform (effects : List Effect) (store : σ) (stdout : Text) :
    ∃ outcome final, perform store stdout effects = (outcome, final) ∧
      FileStore.WrittenInOrder store (effects.filterMap Effect.write?) outcome.exit final ∧
      ∃ done, done <+: effects ∧ outcome.stdout = stdout ++ done.flatMap Effect.printed := by
  induction effects generalizing store stdout with
  | nil => exact ⟨_, store, rfl, .all rfl, [], List.prefix_rfl, (List.append_nil _).symm⟩
  | cons effect effects ih =>
    cases effect with
    | print t =>
      obtain ⟨outcome, final, hRun, hWritten, done, hDone, hShown⟩ := ih store (stdout ++ t)
      refine ⟨outcome, final, hRun, hWritten, .print t :: done, (List.prefix_cons_inj _).mpr hDone, ?_⟩
      rw [hShown, List.append_assoc]
      rfl
    | write path content contexts =>
      rw [perform]
      cases hWrite : FileStore.writeText store path content with
      | error e =>
        exact ⟨_, store, rfl, .stopped (List.nil_append _).symm rfl hWrite, [], List.nil_prefix,
          (List.append_nil _).symm⟩
      | ok next =>
        obtain ⟨outcome, final, hRun, hWritten, done, hDone, hShown⟩ := ih next stdout
        exact ⟨outcome, final, hRun, hWritten.cons hWrite, .write path content contexts :: done,
          (List.prefix_cons_inj _).mpr hDone, hShown⟩

end Job

theorem Arguments.value?_of_path? {a : Arguments} {option : String} {value : Option Text}
    (h : a.path? option = .ok value) : a.value? option = value := by
  unfold path? at h
  split at h
  · cases h
  · exact Except.ok.inj h

namespace AssembleCommand

/-- The address that an option asks for: the number that its value spells, or else the default. -/
inductive AsksAddress (a : Arguments) (option : String) (default : Word) : Word → Prop
  | given {value : Text} {address : Word} (hValue : a.value? option = some value)
      (hSpells : Numeral.SpellsAddress (Text.trim value) address.toNat) : AsksAddress a option default address
  | absent (hNone : a.value? option = none) : AsksAddress a option default default

structure AsksBases (a : Arguments) (bases : Bases) : Prop where
  text : AsksAddress a "text-base" 0x00400000 bases.text
  data : AsksAddress a "data-base" 0x10010000 bases.data

/-- What scanned arguments ask for. -/
inductive Asks (a : Arguments) : AssembleCommand → Prop
  | file {bases : Bases} {input : Path} (hBases : AsksBases a bases) (hLine : a.value? "line" = none)
      (hInput : a.positionals = [input]) :
      Asks a (.file bases input (a.value? "out-dir") (a.value? "symbols"))
  | line {bases : Bases} {instruction : Text} (hBases : AsksBases a bases)
      (hLine : a.value? "line" = some instruction) (hInput : a.positionals = []) :
      Asks a (.line bases instruction)

theorem asksAddress_of_base {a : Arguments} {option : String} {default address : Word}
    (h : base a option default = .ok address) : AsksAddress a option default address := by
  unfold base at h
  cases hValue : a.value? option with
  | none =>
    rw [hValue] at h
    cases h
    exact .absent hValue
  | some value =>
    simp only [hValue] at h
    split at h
    · rename_i n hRead
      obtain ⟨hSpells, hLimit⟩ := Numeral.readAddress_eq_ok_iff.mp hRead
      cases h
      refine .given hValue ?_
      rwa [BitVec.toNat_ofNat, Nat.mod_eq_of_lt hLimit]
    · cases h

theorem exists_asks {arguments : List Text} {command : AssembleCommand}
    (h : ofArguments arguments = .ok command) :
    ∃ a, Arguments.scan kinds {} arguments = .ok a ∧ Asks a command := by
  obtain ⟨a, hScan, h⟩ := bind_eq_ok.mp h
  obtain ⟨outDir, hOut, h⟩ := bind_eq_ok.mp h
  obtain ⟨symbols, hSymbols, h⟩ := bind_eq_ok.mp h
  obtain ⟨text, hText, h⟩ := bind_eq_ok.mp h
  obtain ⟨data, hData, h⟩ := bind_eq_ok.mp h
  refine ⟨a, hScan, ?_⟩
  have hBases : AsksBases a ⟨text, data⟩ := ⟨asksAddress_of_base hText, asksAddress_of_base hData⟩
  obtain rfl := Arguments.value?_of_path? hOut
  obtain rfl := Arguments.value?_of_path? hSymbols
  split at h
  · cases h
  · cases h
  · rename_i hLine hInput
    cases h
    exact .file hBases hLine hInput
  · rename_i hLine hInput
    cases h
    exact .line hBases hLine hInput
  · cases h
  · cases h

/-- The files that a run writes, in order, with their contents. -/
def artifacts (input : Path) (outDir symbols : Option Path) (image : Image) : List (Path × Text) :=
  let hexLines (words : List Word) : Text := words.flatMap fun w => w.hex ++ ['\n']
  [(artifactPath input outDir ".text", hexLines image.text),
    (artifactPath input outDir ".data", hexLines image.data)] ++
    symbols.toList.map fun path => (path, SymbolFile.content image.symbols)

theorem filterMap_writes (input : Path) (outDir symbols : Option Path) {image : Image}
    (hNamed : image.symbols.Named) :
    (writes input outDir symbols image).filterMap Effect.write? = artifacts input outDir symbols image := by
  have hFile := SymbolFile.render_toJson hNamed
  cases symbols <;> simp [writes, artifacts, Effect.write?, HexFile.render, Text.unlines, List.flatMap_map, hFile]

theorem printed_of_mem_writes {input : Path} {outDir symbols : Option Path} {image : Image} {effect : Effect}
    (h : effect ∈ writes input outDir symbols image) : effect.printed = [] := by
  rcases List.mem_append.mp h with hArtifact | hSymbols
  · simp only [List.mem_cons, List.not_mem_nil, or_false] at hArtifact
    rcases hArtifact with rfl | rfl
    · rfl
    · rfl
  · obtain ⟨path, -, rfl⟩ := List.mem_map.mp hSymbols
    rfl

section Running

variable {σ : Type} [FileStore σ] {arguments : List Text}

theorem run_eq {command : AssembleCommand} (h : ofArguments arguments = .ok command) (store : σ) :
    Command.assemble.run arguments store = command.job.run store := by
  rw [Command.run, Command.job, h]
  rfl

theorem run_line (bases : Bases) (instruction : Text) (store : σ) :
    ∃ outcome, (line bases instruction).job.run store = (outcome, store) ∧
      ((∃ words, assembleLine bases instruction = .ok words ∧ outcome.exit = 0 ∧
        outcome.stdout = words.flatMap fun w => w.hex ++ ['\n']) ∨
      ∃ fault, assembleLine bases instruction = .error fault ∧ outcome.exit = 1 ∧ outcome.stdout = []) := by
  rw [job, Job.run]
  cases assembleLine bases instruction with
  | error fault => exact ⟨_, rfl, .inr ⟨fault, rfl, rfl, rfl⟩⟩
  | ok words => exact ⟨_, rfl, .inl ⟨words, rfl, rfl, by simp [HexFile.render, Text.unlines, List.flatMap_map]⟩⟩

theorem run_file (bases : Bases) (input : Path) (outDir symbols : Option Path) (store : σ) :
    (∃ failure, (file bases input outDir symbols).job.run store = (.failed [] failure, store) ∧
      ∀ source image, FileStore.readText store input = .ok source → assemble bases source ≠ .ok image) ∨
    ∃ source image, FileStore.readText store input = .ok source ∧ assemble bases source = .ok image ∧
      (file bases input outDir symbols).job.run store =
        Job.perform store [] (writes input outDir symbols image) := by
  rw [job, Job.run]
  cases FileStore.readText store input with
  | error e => exact .inl ⟨_, rfl, nofun⟩
  | ok source =>
    cases hImage : assemble bases source with
    | error d =>
      refine .inl ⟨⟨["assembling ".toList ++ input], .diagnostic d⟩, ?_, ?_⟩
      · simp only [Except.mapError, bind, Except.bind, hImage]
        rfl
      · rintro _ image ⟨⟩ hOk
        rw [hImage] at hOk
        cases hOk
    | ok image =>
      refine .inr ⟨source, image, rfl, hImage, ?_⟩
      simp only [Except.mapError, bind, Except.bind, hImage]
      rfl

/-- A run over a file that can be read and assembled writes the artifacts. -/
theorem exists_run_file {bases : Bases} {input : Path} {outDir symbols : Option Path} {store : σ} {source : Text}
    {image : Image} (hRead : FileStore.readText store input = .ok source)
    (hImage : assemble bases source = .ok image) :
    ∃ outcome final, (file bases input outDir symbols).job.run store = (outcome, final) ∧ outcome.stdout = [] ∧
      FileStore.WrittenInOrder store (artifacts input outDir symbols image) outcome.exit final := by
  obtain ⟨-, -, hNone⟩ | ⟨source', image', hRead', hImage', hRun⟩ := run_file bases input outDir symbols store
  · exact absurd hImage (hNone source image hRead)
  obtain rfl := Except.ok.inj (hRead.symm.trans hRead')
  obtain rfl := Except.ok.inj (hImage.symm.trans hImage')
  obtain ⟨outcome, final, hPerform, hWritten, done, hDone, hShown⟩ :=
    Job.exists_perform (writes input outDir symbols image) store []
  rw [filterMap_writes input outDir symbols (Symbols.named_of_assemble hImage)] at hWritten
  have hSilent : done.flatMap Effect.printed = [] :=
    List.flatMap_eq_nil_iff.mpr fun effect hEffect => printed_of_mem_writes (hDone.subset hEffect)
  rw [hSilent] at hShown
  exact ⟨outcome, final, hRun.trans hPerform, hShown, hWritten⟩

end Running

end AssembleCommand

open AssembleCommand in
/-- A run over a file that cannot be read or assembled fails and leaves all files as they are. Any other run
writes the artifacts in order, to the last of them or up to one that cannot be written, and only then fails;
the file of the symbols determines them. A run over one line changes no file and prints all of its words or
nothing. -/
theorem artifacts_are_written_in_order {σ : Type} [FileStore σ] (arguments : List Text) (store : σ) :
    (∀ bases input outDir symbols, ofArguments arguments = .ok (.file bases input outDir symbols) →
      (∃ a, Arguments.scan kinds {} arguments = .ok a ∧ Asks a (.file bases input outDir symbols)) ∧
      ∃ outcome final, Command.assemble.run arguments store = (outcome, final) ∧ outcome.stdout = [] ∧
        ((∀ source image, FileStore.readText store input = .ok source → assemble bases source ≠ .ok image) →
          outcome.exit = 1 ∧ final = store) ∧
        ∀ source image, FileStore.readText store input = .ok source → assemble bases source = .ok image →
          FileStore.WrittenInOrder store (artifacts input outDir symbols image) outcome.exit final ∧
          ∀ other : Symbols, other.Named →
            SymbolFile.content other = SymbolFile.content image.symbols → other = image.symbols) ∧
    ∀ bases line, ofArguments arguments = .ok (.line bases line) →
      (∃ a, Arguments.scan kinds {} arguments = .ok a ∧ Asks a (.line bases line)) ∧
      ∃ outcome, Command.assemble.run arguments store = (outcome, store) ∧
        ((∃ words, assembleLine bases line = .ok words ∧ outcome.exit = 0 ∧
          outcome.stdout = words.flatMap fun w => w.hex ++ ['\n']) ∨
        ∃ fault, assembleLine bases line = .error fault ∧ outcome.exit = 1 ∧ outcome.stdout = []) := by
  constructor
  · intro bases input outDir symbols h
    refine ⟨exists_asks h, ?_⟩
    rw [run_eq h]
    obtain ⟨failure, hRun, hNone⟩ | ⟨source, image, hRead, hImage, -⟩ := run_file bases input outDir symbols store
    · refine ⟨_, store, hRun, rfl, fun _ => ⟨rfl, rfl⟩, ?_⟩
      intro source image hRead hImage
      exact absurd hImage (hNone source image hRead)
    · obtain ⟨outcome, final, hRun, hSilent, hWritten⟩ := exists_run_file hRead hImage
      refine ⟨outcome, final, hRun, hSilent, ?_, ?_⟩
      · intro hNone
        exact absurd hImage (hNone source image hRead)
      · intro source' image' hRead' hImage'
        obtain rfl := Except.ok.inj (hRead.symm.trans hRead')
        obtain rfl := Except.ok.inj (hImage.symm.trans hImage')
        refine ⟨hWritten, fun other hNamed hSame => ?_⟩
        exact SymbolFile.content_inj hNamed (Symbols.named_of_assemble hImage) hSame
  · intro bases line h
    refine ⟨exists_asks h, ?_⟩
    rw [run_eq h]
    exact run_line bases line store

theorem artifacts_are_written_in_order_blocked :
    let arguments := ["--text-base", "0x10", "--symbols", "p.json", "p.asm"].map String.toList
    let text := ("p.asm.text".toList, "08000004\n".toList)
    let data := ("p.asm.data".toList, [])
    let symbols := ("p.json".toList,
      "\x7b\n  \"text\": \x7b\n    \"a\": 16\n  \x7d,\n  \"data\": \x7b\x7d\n\x7d".toList)
    (∃ (store final : Tree) (outcome : Outcome),
      FileStore.readText store "p.asm".toList = .ok "a: j a".toList ∧
      Command.assemble.run arguments store = (outcome, final) ∧ outcome.exit = 0 ∧
      FileStore.writeAll store [text, data, symbols] = .ok final) ∧
    ∃ (store final : Tree) (outcome : Outcome) (e : IoError),
      FileStore.readText store "p.asm".toList = .ok "a: j a".toList ∧
      Command.assemble.run arguments store = (outcome, final) ∧ outcome.exit = 1 ∧
      FileStore.writeAll store [text] = .ok final ∧ FileStore.writeText final data.1 data.2 = .error e := by
  intro arguments text data symbols
  have hAccepted : AssembleCommand.ofArguments arguments =
      .ok (.file ⟨16, 0x10010000⟩ "p.asm".toList none (some "p.json".toList)) := rfl
  have hImage : ∃ image, assemble ⟨16, 0x10010000⟩ "a: j a".toList = .ok image ∧
      AssembleCommand.artifacts "p.asm".toList none (some "p.json".toList) image = [text, data, symbols] :=
    ⟨_, rfl, rfl⟩
  obtain ⟨image, hImage, hArtifacts⟩ := hImage
  -- Both runs have the same input, so they differ only in what stands at the path of the data file.
  have hRun (store : Tree) (hRead : FileStore.readText store "p.asm".toList = .ok "a: j a".toList) :
      ∃ outcome final, Command.assemble.run arguments store = (outcome, final) ∧
        FileStore.WrittenInOrder store [text, data, symbols] outcome.exit final := by
    obtain ⟨-, outcome, final, hRun, -, -, hAssembled⟩ :=
      (artifacts_are_written_in_order arguments store).1 _ _ _ _ hAccepted
    rw [← hArtifacts]
    exact ⟨outcome, final, hRun, (hAssembled _ _ hRead hImage).1⟩
  have hRead (nodes : List (Location × Node)) : FileStore.readText
      (⟨[], (["p.asm".toList], .file (FileStore.encodeText "a: j a".toList)) :: nodes⟩ : Tree)
      "p.asm".toList = .ok "a: j a".toList :=
    bind_eq_ok.mpr ⟨_, rfl, FileStore.decodeText_encodeText _⟩
  constructor
  · obtain ⟨outcome, final, hRun, hWritten⟩ := hRun _ (hRead [])
    have hAll : ∃ last, FileStore.writeAll (⟨[], [(["p.asm".toList],
        .file (FileStore.encodeText "a: j a".toList))]⟩ : Tree) [text, data, symbols] = .ok last := ⟨_, rfl⟩
    obtain ⟨last, hAll⟩ := hAll
    obtain ⟨hExit, rfl⟩ := hWritten.unique (.all hAll)
    exact ⟨_, final, outcome, hRead [], hRun, hExit, hAll⟩
  · obtain ⟨outcome, final, hRun, hWritten⟩ := hRun _ (hRead [(["p.asm.data".toList], .directory)])
    have hStopped : ∃ last e, FileStore.writeAll (⟨[], [(["p.asm".toList],
        .file (FileStore.encodeText "a: j a".toList)), (["p.asm.data".toList], .directory)]⟩ : Tree) [text] =
          .ok last ∧ FileStore.writeText last data.1 data.2 = .error e := ⟨_, _, rfl, rfl⟩
    obtain ⟨last, e, hText, hData⟩ := hStopped
    obtain ⟨hExit, rfl⟩ := hWritten.unique (.stopped (List.singleton_append).symm hText hData)
    exact ⟨_, final, outcome, e, hRead _, hRun, hExit, hText, hData⟩

end MipsAsm
