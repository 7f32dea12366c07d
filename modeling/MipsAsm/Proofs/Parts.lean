import MipsAsm.Proofs.Lines
import MipsAsm.Proofs.Placement

/-!
The two segments are laid out apart from each other. A part is what a layout holds of one segment,
without the lines that it comes from; an entry changes the part of the segment in which it lies, by what
that part holds, and leaves the other part alone. So a source is assembled by two runs, one over the
entries of each segment, and how the segments are cut into blocks does not matter.
-/

set_option autoImplicit false

namespace MipsAsm

open Outcome

namespace Entry

/-- The segment that the entry switches to. -/
def enters? (e : Entry) : Option Segment :=
  match e.statement with
  | some (.segment segment) => some segment
  | _ => none

/-- A segment directive has no label. -/
def Unlabelled (e : Entry) : Prop := e.enters?.isSome → e.label = none

theorem statement_of_enters {e : Entry} {next : Segment} (h : e.enters? = some next) :
    e.statement = some (.segment next) := by
  unfold enters? at h
  split at h
  · rename_i segment hStatement
    cases h
    exact hStatement
  · cases h

end Entry

namespace SourceLine

theorem concrete_eq_nil {line : SourceLine} (h : ∀ i, line.statement ≠ some (.instr i)) :
    line.concrete = [] := by
  unfold concrete
  split
  · rename_i i hi
    exact absurd hi (h i)
  · rfl

theorem dataWords_eq_nil {line : SourceLine} (h : ∀ bytes, line.statement ≠ some (.string bytes)) :
    line.dataWords = [] := by
  unfold dataWords
  split
  · rename_i bytes hBytes
    exact absurd hBytes (h bytes)
  · rfl

end SourceLine

theorem Symbols.ofSegment_of_bind {s s' : Symbols} {segment other : Segment} {name : Text} {address : Word}
    (h : s.bind segment name address = .ok s') (hOther : other ≠ segment) :
    s'.ofSegment other = s.ofSegment other := by
  unfold bind at h
  split at h
  · cases h
  · cases h
    cases segment with
    | text =>
      cases other with
      | text => exact absurd rfl hOther
      | data => rfl
    | data =>
      cases other with
      | text => rfl
      | data => exact absurd rfl hOther

/-- The entries that lie in `segment`, behind lines that end in `current`. Directives lie nowhere. -/
def entriesFrom (segment : Segment) : Segment → List Entry → List Entry
  | _, [] => []
  | current, entry :: rest =>
    match entry.enters? with
    | some next => entriesFrom segment next rest
    | none =>
      if current = segment then entry :: entriesFrom segment current rest
      else entriesFrom segment current rest

theorem entriesFrom_of_enters {segment current next : Segment} {e : Entry} (h : e.enters? = some next)
    (rest : List Entry) : entriesFrom segment current (e :: rest) = entriesFrom segment next rest := by
  rw [entriesFrom, h]

theorem entriesFrom_of_lies {segment current : Segment} {e : Entry} (h : e.enters? = none)
    (rest : List Entry) :
    entriesFrom segment current (e :: rest) =
      if current = segment then e :: entriesFrom segment current rest
      else entriesFrom segment current rest := by
  rw [entriesFrom, h]

theorem entriesFrom_append_of_lies (segment current : Segment) {front : List Entry}
    (h : ∀ e ∈ front, e.enters? = none) (rest : List Entry) :
    entriesFrom segment current (front ++ rest) =
      if current = segment then front ++ entriesFrom segment current rest
      else entriesFrom segment current rest := by
  induction front with
  | nil => simp
  | cons e front ih =>
    obtain ⟨hHead, hTail⟩ := List.forall_mem_cons.mp h
    rw [List.cons_append, entriesFrom_of_lies hHead, ih hTail]
    split
    · rfl
    · rfl

theorem exists_mem_entriesFrom {e : Entry} (hLies : e.enters? = none) {entries : List Entry}
    (he : e ∈ entries) (current : Segment) : ∃ segment, e ∈ entriesFrom segment current entries := by
  induction entries generalizing current with
  | nil => cases he
  | cons first rest ih =>
    cases hEnters : first.enters? with
    | some next =>
      have hRest : e ∈ rest := by
        rcases List.mem_cons.mp he with rfl | hRest
        · rw [hLies] at hEnters
          cases hEnters
        · exact hRest
      obtain ⟨segment, hMem⟩ := ih hRest next
      exact ⟨segment, by rwa [entriesFrom_of_enters hEnters]⟩
    | none =>
      rcases List.mem_cons.mp he with rfl | hRest
      · refine ⟨current, ?_⟩
        rw [entriesFrom_of_lies hEnters, if_pos rfl]
        exact List.mem_cons_self
      · obtain ⟨segment, hMem⟩ := ih hRest current
        refine ⟨segment, ?_⟩
        rw [entriesFrom_of_lies hEnters]
        split
        · exact List.mem_cons_of_mem _ hMem
        · exact hMem

/-- The entries of a source that lie in `segment`. Those before any directive lie in the text segment. -/
def entriesIn (segment : Segment) (entries : List Entry) : List Entry :=
  entriesFrom segment .text entries

abbrev Segment.Item : Segment → Type
  | .text => SymInstr
  | .data => Word

/-- What a statement adds to the segment in which it lies. -/
def Statement.items : (segment : Segment) → Statement → Except Fault (List segment.Item)
  | _, .segment _ => .ok []
  | .data, .string bytes => .ok (Word.ofString bytes)
  | .text, .string _ => .error (.unsupportedDirective ".asciiz in .text".toList)
  | .text, .instr i => do (← i.expand).mapM SymInstr.read
  | .data, .instr i => .error (.malformed (.instructionInData i.mnemonic))

def Entry.items (segment : Segment) (e : Entry) : Except Fault (List segment.Item) :=
  match e.statement with
  | none => .ok []
  | some statement => statement.items segment

/-- The entry can be laid out in some segment. -/
def Entry.Fitting (e : Entry) : Prop := ∃ segment items, e.items segment = .ok items

/-- One segment so far: where its next item goes, its labels, and its items. -/
structure Part (segment : Segment) where
  next : Word
  labels : Bindings
  items : List segment.Item

namespace Part

variable {segment : Segment}

def start (bases : Bases) (segment : Segment) : Part segment :=
  ⟨bases.ofSegment segment, Symbols.empty.ofSegment segment, []⟩

def bindLabel (p : Part segment) : Option Text → Except Fault (Part segment)
  | none => .ok p
  | some name =>
    if (p.labels.get? name).isSome then .error (.duplicateLabel name)
    else .ok { p with labels := p.labels.insert name p.next }

def append (p : Part segment) (items : List segment.Item) : Part segment :=
  { p with next := wordAddress p.next items.length, items := p.items ++ items }

def add (p : Part segment) (e : Entry) : Except Fault (Part segment) := do
  let bound ← p.bindLabel e.label
  return bound.append (← e.items segment)

def run (p : Part segment) (entries : List Entry) : Except Fault (Part segment) := entries.foldlM add p

theorem add_eq_ok {p p' : Part segment} {e : Entry} :
    p.add e = .ok p' ↔ ∃ bound items, p.bindLabel e.label = .ok bound ∧ e.items segment = .ok items ∧
      p' = bound.append items := by
  simp only [add, bind_eq_ok, pure_eq_ok]
  constructor
  · rintro ⟨bound, hBound, items, hItems, rfl⟩
    exact ⟨bound, items, hBound, hItems, rfl⟩
  · rintro ⟨bound, items, hBound, hItems, rfl⟩
    exact ⟨bound, hBound, items, hItems, rfl⟩

theorem run_cons_eq_ok {p p' : Part segment} {e : Entry} {rest : List Entry} :
    p.run (e :: rest) = .ok p' ↔ ∃ mid, p.add e = .ok mid ∧ mid.run rest = .ok p' := by
  rw [run, List.foldlM_cons, bind_eq_ok]
  rfl

theorem run_append_eq_ok {p p' : Part segment} {front back : List Entry} :
    p.run (front ++ back) = .ok p' ↔ ∃ mid, p.run front = .ok mid ∧ mid.run back = .ok p' := by
  rw [run, List.foldlM_append, bind_eq_ok]
  rfl

theorem items_of_run {p p' : Part segment} {entries : List Entry}
    (h : p.run entries = .ok p') : ∀ e ∈ entries, ∃ items, e.items segment = .ok items := by
  induction entries generalizing p with
  | nil => exact nofun
  | cons e rest ih =>
    obtain ⟨mid, hAdd, hRest⟩ := run_cons_eq_ok.mp h
    obtain ⟨-, items, -, hItems, -⟩ := add_eq_ok.mp hAdd
    exact List.forall_mem_cons.mpr ⟨⟨items, hItems⟩, ih hRest⟩

@[simp] theorem append_nil (p : Part segment) : p.append [] = p := by
  simp [append]

theorem append_append (p : Part segment) (front back : List segment.Item) :
    (p.append front).append back = p.append (front ++ back) := by
  simp [append, wordAddress_wordAddress]

end Part

namespace Layout

variable {l l' : Layout}

def part (l : Layout) : (segment : Segment) → Part segment
  | .text => ⟨l.textNext, l.symbols.text, l.text.toList.map Placed.instr⟩
  | .data => ⟨l.dataNext, l.symbols.data, l.data.toList⟩

theorem part_start (bases : Bases) (segment : Segment) : (start bases).part segment = .start bases segment := by
  cases segment <;> rfl

theorem part_bindLabel {segment : Segment} (hSegment : l.segment = segment) (label : Option Text) :
    (l.bindLabel label).map (part · segment) = (l.part segment).bindLabel label := by
  cases label with
  | none => rfl
  | some name =>
    have hBound : (l.part segment).labels.get? name = l.symbols.get? segment name := by
      cases segment <;> rfl
    have hHere : l.here = (l.part segment).next := by
      rw [here, hSegment]
      cases segment <;> rfl
    rw [Layout.bindLabel, Part.bindLabel, hSegment, hHere, hBound]
    unfold Symbols.bind
    split
    · rfl
    · cases segment <;> rfl

theorem part_foldlM (site : Site) (concrete : List InstrText) :
    (concrete.foldlM (fun (l : Layout) i => do return l.emitInstr site (← SymInstr.read i)) l).map
        (part · .text) =
      (concrete.mapM SymInstr.read).map (l.part .text).append := by
  induction concrete generalizing l with
  | nil => exact congrArg Except.ok (Part.append_nil _).symm
  | cons i rest ih =>
    rw [List.foldlM_cons, List.mapM_cons]
    cases SymInstr.read i with
    | error fault => rfl
    | ok s =>
      have hFirst : (l.emitInstr site s).part .text = (l.part .text).append [s] := by
        simp [part, emitInstr, Part.append, wordAddress]
      change Except.map _ (rest.foldlM _ (l.emitInstr site s)) = _
      rw [ih, hFirst]
      cases rest.mapM SymInstr.read with
      | error fault => rfl
      | ok instrs => exact congrArg Except.ok (Part.append_append ..)

theorem part_emit {segment : Segment} (hSegment : l.segment = segment) (site : Site) {statement : Statement}
    (hEnters : ∀ next, statement ≠ .segment next) :
    (l.emit site statement).map (part · segment) = (statement.items segment).map (l.part segment).append := by
  cases statement with
  | segment next => exact absurd rfl (hEnters next)
  | string bytes =>
    cases segment with
    | text => simp only [emit, hSegment, Statement.items, Except.map]
    | data => simp [emit, hSegment, Statement.items, Except.map, emitWords, part, Part.append, wordAddress]
  | instr i =>
    cases segment with
    | text =>
      simp only [emit, hSegment, Statement.items]
      cases i.expand with
      | error fault => rfl
      | ok concrete => exact part_foldlM site concrete
    | data => simp only [emit, hSegment, Statement.items, Except.map]

theorem segment_bindLabel {label : Option Text} (h : l.bindLabel label = .ok l') : l'.segment = l.segment := by
  obtain ⟨symbols, -, rfl⟩ := exists_labelled h
  rfl

/-- An entry does to its segment's part what it does to the layout, and fails alike. -/
theorem part_step {segment : Segment} {line : SourceLine} (hSegment : l.segment = segment)
    (hEnters : line.entry.enters? = none) :
    (l.step line).map (part · segment) = (l.part segment).add line.entry := by
  obtain ⟨site, label, statement⟩ := line
  have hLabel := part_bindLabel hSegment label
  cases statement with
  | none =>
    have hStep : l.step ⟨site, label, none⟩ = l.bindLabel label := by
      cases label <;> rfl
    rw [hStep, hLabel, Part.add, SourceLine.entry]
    cases (l.part segment).bindLabel label with
    | error fault => rfl
    | ok bound => exact congrArg Except.ok (Part.append_nil bound).symm
  | some statement =>
    have hNot : ∀ next, statement ≠ .segment next := by
      rintro next rfl
      cases hEnters
    have hStep : l.step ⟨site, label, some statement⟩ = (do (← l.bindLabel label).emit site statement) := by
      cases label with
      | none => rfl
      | some name =>
        cases statement with
        | segment next => exact absurd rfl (hNot next)
        | string bytes => rfl
        | instr i => rfl
    rw [hStep, Part.add, SourceLine.entry, ← hLabel]
    cases hBound : l.bindLabel label with
    | error fault => rfl
    | ok bound =>
      exact part_emit ((segment_bindLabel hBound).trans hSegment) site hNot

theorem Labelled.ofSegment_of_ne {symbols : Symbols} {label : Option Text} (h : l.Labelled symbols label)
    {other : Segment} (hOther : other ≠ l.segment) : symbols.ofSegment other = l.symbols.ofSegment other := by
  cases label with
  | none => exact congrArg (·.ofSegment other) h
  | some name => exact Symbols.ofSegment_of_bind h hOther

theorem Stepped.part_of_ne {line : SourceLine} (h : l.Stepped line l') {other : Segment}
    (hOther : other ≠ l.segment) : l'.part other = l.part other := by
  have hLabels := h.symbols.ofSegment_of_ne hOther
  cases other with
  | text =>
    have hNone : line.concrete = [] :=
      SourceLine.concrete_eq_nil (fun i hi => hOther (h.belongs _ hi).symm)
    obtain ⟨placed, hPlaced, hText⟩ := h.text
    have hNext := h.textNext
    rw [hNone] at hPlaced hNext
    rw [List.forall₂_nil_left_iff.mp hPlaced.read, List.append_nil] at hText
    rw [part, part, hNext, hText, List.length_nil, wordAddress_zero]
    exact congrArg (Part.mk _ · _) hLabels
  | data =>
    have hNone : line.dataWords = [] :=
      SourceLine.dataWords_eq_nil (fun bytes hBytes => hOther (h.belongs _ hBytes).symm)
    have hData := h.data
    have hNext := h.dataNext
    rw [hNone] at hData hNext
    rw [part, part, hNext, hData, List.length_nil, wordAddress_zero, List.append_nil]
    exact congrArg (Part.mk _ · _) hLabels

theorem step_of_enters {line : SourceLine} {next : Segment} (hEnters : line.entry.enters? = some next) :
    l.step line = if line.label = none then .ok { l with segment := next }
      else .error (.malformed .labelledSegment) := by
  obtain ⟨site, label, statement⟩ := line
  obtain rfl : statement = some (.segment next) := Entry.statement_of_enters hEnters
  cases label <;> rfl

theorem unlabelled_of_step {line : SourceLine} (h : l.step line = .ok l') : line.entry.Unlabelled := by
  intro hSome
  obtain ⟨next, hEnters⟩ := Option.isSome_iff_exists.mp hSome
  rw [step_of_enters hEnters] at h
  split at h
  · assumption
  · cases h

theorem run_of_step {line : SourceLine} (h : l.step line = .ok l') (segment : Segment) (rest : List Entry) :
    (l.part segment).run (entriesFrom segment l.segment (line.entry :: rest)) =
      (l'.part segment).run (entriesFrom segment l'.segment rest) := by
  cases hEnters : line.entry.enters? with
  | some next =>
    have hLabel : line.label = none := unlabelled_of_step h (by rw [hEnters]; rfl)
    rw [step_of_enters hEnters, if_pos hLabel] at h
    cases h
    rw [entriesFrom_of_enters hEnters]
    cases segment <;> rfl
  | none =>
    have hStepped := stepped_of_step h
    have hSegment : l'.segment = l.segment := by
      rw [hStepped.segment]
      exact congrArg (·.getD l.segment) hEnters
    -- The line grows the part of its own segment by its entry, and the other part skips the entry.
    rw [entriesFrom_of_lies hEnters, hSegment]
    split
    · rename_i hHere
      have hAdd := part_step hHere hEnters
      rw [h] at hAdd
      rw [Part.run, List.foldlM_cons, ← hAdd]
      rfl
    · rename_i hOther
      rw [hStepped.part_of_ne (Ne.symm hOther)]

theorem exists_step {line : SourceLine} {rest : List Entry} {p : Part l.segment}
    (hUnlabelled : line.entry.Unlabelled)
    (hRun : (l.part l.segment).run (entriesFrom l.segment l.segment (line.entry :: rest)) = .ok p) :
    ∃ l', l.step line = .ok l' := by
  cases hEnters : line.entry.enters? with
  | some next =>
    have hLabel : line.label = none := hUnlabelled (by rw [hEnters]; rfl)
    rw [step_of_enters hEnters, if_pos hLabel]
    exact ⟨_, rfl⟩
  | none =>
    rw [entriesFrom_of_lies hEnters, if_pos rfl, Part.run_cons_eq_ok] at hRun
    obtain ⟨grown, hAdd, -⟩ := hRun
    rw [← part_step rfl hEnters] at hAdd
    cases hStep : l.step line with
    | error fault =>
      rw [hStep] at hAdd
      cases hAdd
    | ok l' => exact ⟨l', rfl⟩

theorem parts_of_foldlM {lines : List SourceLine}
    (h : lines.foldlM (fun l line => Diagnostic.locate line.site (step l line)) l = .ok l') :
    (∀ e ∈ lines.map SourceLine.entry, e.Unlabelled) ∧
      ∀ segment, (l.part segment).run (entriesFrom segment l.segment (lines.map SourceLine.entry)) =
        .ok (l'.part segment) := by
  induction lines generalizing l with
  | nil =>
    obtain rfl := pure_eq_ok.mp h
    exact ⟨nofun, fun segment => rfl⟩
  | cons line rest ih =>
    rw [List.foldlM_cons] at h
    obtain ⟨mid, hLine, hRest⟩ := bind_eq_ok.mp h
    have hStep := locate_eq_ok.mp hLine
    obtain ⟨hUnlabelled, hRuns⟩ := ih hRest
    refine ⟨List.forall_mem_cons.mpr ⟨unlabelled_of_step hStep, hUnlabelled⟩, fun segment => ?_⟩
    rw [List.map_cons, run_of_step hStep]
    exact hRuns segment

theorem exists_foldlM_of_parts {lines : List SourceLine}
    (hUnlabelled : ∀ e ∈ lines.map SourceLine.entry, e.Unlabelled)
    (hRuns : ∀ segment, ∃ p, (l.part segment).run
      (entriesFrom segment l.segment (lines.map SourceLine.entry)) = .ok p) :
    ∃ l', lines.foldlM (fun l line => Diagnostic.locate line.site (step l line)) l = .ok l' := by
  induction lines generalizing l with
  | nil => exact ⟨l, rfl⟩
  | cons line rest ih =>
    obtain ⟨hLine, hRest⟩ := List.forall_mem_cons.mp hUnlabelled
    obtain ⟨p, hHere⟩ := hRuns l.segment
    obtain ⟨mid, hStep⟩ := exists_step hLine hHere
    obtain ⟨l', hRun⟩ := ih (l := mid) hRest (fun segment => by
      obtain ⟨p, hPart⟩ := hRuns segment
      rw [List.map_cons, run_of_step hStep] at hPart
      exact ⟨p, hPart⟩)
    refine ⟨l', ?_⟩
    rw [List.foldlM_cons]
    exact bind_eq_ok.mpr ⟨mid, locate_eq_ok.mpr hStep, hRun⟩

end Layout

/-- The words of the instructions, which stand at consecutive addresses from `base` on. -/
def Encodes (symbols : Symbols) (base : Word) (instrs : List SymInstr) (words : List Word) : Prop :=
  List.Forall₂ (fun placed w => placed.1.word symbols (wordAddress base placed.2) = .ok w)
    instrs.zipIdx words

theorem Layout.Tracks.encodes_iff {bases : Bases} {lines : List SourceLine} {l : Layout}
    (h : l.Tracks bases lines) {symbols : Symbols} {words : List Word} :
    Encodes symbols bases.text (l.part .text).items words ↔
      List.Forall₂ (fun p w => p.instr.word symbols p.address = .ok w) l.text.toList words := by
  have hPlaces : (l.text.toList.map Placed.instr).zipIdx.map
        (fun placed => (placed.1, wordAddress bases.text placed.2)) =
      l.text.toList.map (fun p => (p.instr, p.address)) := by
    apply List.ext_getElem?
    intro k
    cases hk : l.text.toList[k]? with
    | none => simp [hk]
    | some p => simp [hk, h.text.address_eq hk]
  rw [← List.forall₂_map_left_iff (f := fun p : Placed => (p.instr, p.address))
    (R := fun place w => place.1.word symbols place.2 = .ok w), ← hPlaces, List.forall₂_map_left_iff]
  exact Iff.rfl

/-- The image of entries whose segments are the parts. -/
structure Assembled (bases : Bases) (entries : List Entry) (parts : (segment : Segment) → Part segment)
    (image : Image) : Prop where
  unlabelled : ∀ e ∈ entries, e.Unlabelled
  run : ∀ segment, (Part.start bases segment).run (entriesIn segment entries) = .ok (parts segment)
  symbols : ∀ segment, image.symbols.ofSegment segment = (parts segment).labels
  data : image.data = (parts .data).items
  text : Encodes image.symbols bases.text (parts .text).items image.text

theorem Assembled.fitting {bases : Bases} {entries : List Entry}
    {parts : (segment : Segment) → Part segment} {image : Image} (h : Assembled bases entries parts image) :
    ∀ e ∈ entries, e.Fitting := by
  intro e he
  cases hEnters : e.enters? with
  | some next =>
    refine ⟨.text, [], ?_⟩
    rw [Entry.items, Entry.statement_of_enters hEnters]
    rfl
  | none =>
    obtain ⟨segment, hMem⟩ := exists_mem_entriesFrom hEnters he .text
    exact ⟨segment, Part.items_of_run (h.run segment) e hMem⟩

section Assembling

variable {bases : Bases} {source : Text} {image : Image}

theorem exists_assembled (h : assemble bases source = .ok image) :
    ∃ entries parts, (Text.contents source).mapM Entry.read = .ok entries ∧
      Assembled bases entries parts image := by
  obtain ⟨lines, layout, hLines, hLayout, hWords, hData, hSymbols⟩ := exists_layout h
  have hTracks := Layout.tracks_of_ofLines hLayout
  obtain ⟨hUnlabelled, hRuns⟩ := Layout.parts_of_foldlM hLayout
  refine ⟨lines.map SourceLine.entry, layout.part, SourceLine.entries_of_readAll hLines, hUnlabelled, ?_, ?_,
    hData, ?_⟩
  · intro segment
    rw [← Layout.part_start]
    exact hRuns segment
  · intro segment
    rw [hSymbols]
    cases segment <;> rfl
  · rw [hSymbols]
    exact hTracks.encodes_iff.mpr (Layout.forall₂_words hWords)

theorem assemble_of_assembled {entries : List Entry} {parts : (segment : Segment) → Part segment}
    (hRead : (Text.contents source).mapM Entry.read = .ok entries)
    (h : Assembled bases entries parts image) : assemble bases source = .ok image := by
  obtain ⟨lines, hLines, rfl⟩ := SourceLine.exists_readAll hRead
  have hStart (segment : Segment) :
      ((Layout.start bases).part segment).run (entriesFrom segment (Layout.start bases).segment
        (lines.map SourceLine.entry)) = .ok (parts segment) := by
    rw [Layout.part_start]
    exact h.run segment
  obtain ⟨layout, hLayout⟩ := Layout.exists_foldlM_of_parts h.unlabelled (fun segment => ⟨_, hStart segment⟩)
  have hParts (segment : Segment) : layout.part segment = parts segment := by
    have hRun := (Layout.parts_of_foldlM hLayout).2 segment
    rw [hStart] at hRun
    exact (Except.ok.inj hRun).symm
  have hSymbols : image.symbols = layout.symbols := by
    have hText := h.symbols .text
    have hData := h.symbols .data
    rw [← hParts] at hText hData
    exact congrArg₂ Symbols.mk hText hData
  have hWords : layout.words = .ok image.text := by
    have hText := h.text
    rw [← hParts, hSymbols, (Layout.tracks_of_ofLines hLayout).encodes_iff] at hText
    exact mapM_eq_ok_iff.mpr (hText.imp (fun p w hWord => locate_eq_ok.mpr hWord))
  have hData : image.data = layout.data.toList := by
    rw [h.data, ← hParts]
    rfl
  rw [assemble_of_layout hLines hLayout, hWords, ← hData, ← hSymbols]
  rfl

/-- What is assembled depends on the entries of each segment only. -/
theorem assemble_of_entriesIn {other : Text} {entries entries' : List Entry}
    (hRead : (Text.contents source).mapM Entry.read = .ok entries)
    (hOther : (Text.contents other).mapM Entry.read = .ok entries')
    (hUnlabelled : ∀ e ∈ entries', e.Unlabelled)
    (hSame : ∀ segment, entriesIn segment entries = entriesIn segment entries')
    (h : assemble bases source = .ok image) : assemble bases other = .ok image := by
  obtain ⟨found, parts, hFound, hAssembled⟩ := exists_assembled h
  obtain rfl : entries = found := by
    rw [hRead] at hFound
    exact Except.ok.inj hFound
  have hRuns (segment : Segment) :
      (Part.start bases segment).run (entriesIn segment entries') = .ok (parts segment) := by
    rw [← hSame]
    exact hAssembled.run segment
  exact assemble_of_assembled hOther { hAssembled with unlabelled := hUnlabelled, run := hRuns }

end Assembling

theorem interleaving_is_immaterial {bases : Bases} {first second : Text} {lines lines' : List SourceLine}
    (hFirst : SourceLine.readAll first = .ok lines) (hSecond : SourceLine.readAll second = .ok lines')
    (hLabels : ∀ line ∈ lines ++ lines', line.enters?.isSome → line.label = none)
    (hSame : ∀ segment, entriesIn segment (lines.map SourceLine.entry) =
      entriesIn segment (lines'.map SourceLine.entry)) :
    (∃ image, assemble bases first = .ok image ∧ assemble bases second = .ok image) ∨
      ∃ d d', assemble bases first = .error d ∧ assemble bases second = .error d' := by
  have hEntries := SourceLine.entries_of_readAll hFirst
  have hEntries' := SourceLine.entries_of_readAll hSecond
  have hUnlabelled : ∀ e ∈ lines.map SourceLine.entry ++ lines'.map SourceLine.entry, e.Unlabelled := by
    rw [← List.map_append, List.forall_mem_map]
    exact hLabels
  obtain ⟨hUnlabelled, hUnlabelled'⟩ := List.forall_mem_append.mp hUnlabelled
  cases hAssemble : assemble bases first with
  | ok image =>
    exact .inl ⟨image, rfl, assemble_of_entriesIn hEntries hEntries' hUnlabelled' hSame hAssemble⟩
  | error d =>
    cases hAssemble' : assemble bases second with
    | ok image =>
      have hOk := assemble_of_entriesIn hEntries' hEntries hUnlabelled (fun segment => (hSame segment).symm)
        hAssemble'
      rw [hAssemble] at hOk
      cases hOk
    | error d' => exact .inr ⟨d, d', rfl, rfl⟩

theorem interleaving_is_immaterial_blocks :
    ∃ first second lines lines' image, SourceLine.readAll first = .ok lines ∧
      SourceLine.readAll second = .ok lines' ∧ lines.length = 8 ∧ lines'.length = 5 ∧
      (∀ line ∈ lines ++ lines', line.enters?.isSome → line.label = none) ∧
      (∀ segment, entriesIn segment (lines.map SourceLine.entry) =
        entriesIn segment (lines'.map SourceLine.entry)) ∧
      assemble {} first = .ok image ∧ assemble {} second = .ok image := by
  have hRead : ∃ lines lines' image,
      SourceLine.readAll (".data\nm: .asciiz \"ab\"\n.text\na: la $t0, n\n".toList ++
        ".data\nn: .asciiz \"c\"\n.text\nj a".toList) = .ok lines ∧
      SourceLine.readAll ("a: la $t0, n\nj a\n".toList ++
        ".data\nm: .asciiz \"ab\"\nn: .asciiz \"c\"".toList) = .ok lines' ∧
      lines.length = 8 ∧ lines'.length = 5 ∧
      assemble {} (".data\nm: .asciiz \"ab\"\n.text\na: la $t0, n\n".toList ++
        ".data\nn: .asciiz \"c\"\n.text\nj a".toList) = .ok image ∧
      (∀ line ∈ lines ++ lines', line.enters?.isSome → line.label = none) ∧
      ∀ segment, entriesIn segment (lines.map SourceLine.entry) =
        entriesIn segment (lines'.map SourceLine.entry) := by
    refine ⟨_, _, _, rfl, rfl, rfl, rfl, rfl, by decide, ?_⟩
    intro segment
    cases segment <;> rfl
  obtain ⟨lines, lines', image, hFirst, hSecond, hLength, hLength', hImage, hLabels, hSame⟩ := hRead
  rcases interleaving_is_immaterial hFirst hSecond hLabels hSame with
    ⟨image', hImage', hOther⟩ | ⟨d, d', hError, -⟩
  · exact ⟨_, _, lines, lines', image', hFirst, hSecond, hLength, hLength', hLabels, hSame, hImage', hOther⟩
  · rw [hImage] at hError
    cases hError

end MipsAsm
