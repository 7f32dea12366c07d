import MipsAsm.Proofs.Expansion
import MipsAsm.Proofs.LineGrammar
import MipsAsm.Proofs.Parts

/-!
Pseudo-instructions written out. Replacing every instruction of a source by the lines of its expansion
gives a source that is read as the expanded entries. Expanding an entry leaves it in its segment and adds
the same label and the same items, so both sources have the same image.
-/

set_option autoImplicit false

namespace MipsAsm

open Outcome Text

namespace Entry

section Written

variable {label : Option Text} (hLabel : ∀ name ∈ label, isIdentifier name = true) {line : Text}
  (hLine : Unmarked line)

include hLabel hLine

theorem read_written {i : InstrText} (hRead : InstrText.read line = .ok i) :
    Entry.read (written label line) = .ok ⟨label, some (.instr i)⟩ := by
  cases label with
  | none => exact read_of_unmarked hLine hRead
  | some name =>
    have hSplit : SourceLine.splitLabel (written (some name) line) = .ok (some name, line) := by
      have hSplits : SourceLine.SplitsAs (name ++ [] ++ [':', ' '] ++ line) (some name) line :=
        .label (hLabel name rfl) gap_nil (List.forall_mem_singleton.mpr rfl)
      rw [List.append_nil] at hSplits
      exact hSplits.splitLabel_eq hLine.trimmed
    exact read_of_unmarked_body hSplit hLine hRead

theorem not_mem_written {c : Char} (hChar : c ∈ "\n#".toList) : c ∉ written label line := by
  have hChars : ("\n#".toList.all fun c =>
      decide (isNamePart c = false ∧ c ∉ ": ".toList ∧ c ∈ "\n#:\"".toList)) = true := by
    decide
  obtain ⟨hPart, hMark, hMem⟩ := of_decide_eq_true (List.all_eq_true.mp hChars c hChar)
  have hNotLine := hLine.not_mem c hMem
  cases label with
  | none => exact hNotLine
  | some name =>
    rw [written, List.mem_append, List.mem_append]
    rintro ((hc | hc) | hc)
    · exact not_mem_of_isIdentifier (hLabel name rfl) hPart hc
    · exact hMark hc
    · exact hNotLine hc

theorem content_written : content (written label line) = written label line := by
  refine content_eq_self ?_ (not_mem_written hLabel hLine (by decide))
  cases label with
  | none => exact hLine.trimmed
  | some name =>
    have hName := hLabel name rfl
    have hNe : name ≠ [] := by
      rintro rfl
      cases hName
    exact (trimmed_of_isIdentifier hName).append hLine.trimmed hNe hLine.ne_nil _

omit hLabel in
theorem written_ne_nil : written label line ≠ [] := by
  cases label with
  | none => exact hLine.ne_nil
  | some name => exact List.append_ne_nil_of_right_ne_nil _ hLine.ne_nil

end Written

/-- What an entry becomes when its instruction is expanded. -/
def expanded (e : Entry) : List Entry :=
  match e.statement with
  | some (.instr i) =>
    match i.expand with
    | .ok (first :: rest) => ⟨e.label, some (.instr first)⟩ :: rest.map ofInstr
    | _ => [e]
  | _ => [e]

theorem expanded_of_instr {label : Option Text} {i first : InstrText} {rest : List InstrText}
    (h : i.expand = .ok (first :: rest)) :
    expanded ⟨label, some (.instr i)⟩ = ⟨label, some (.instr first)⟩ :: rest.map ofInstr := by
  simp only [expanded, h]

theorem expanded_of_ne {e : Entry} (h : ∀ i, e.statement ≠ some (.instr i)) : e.expanded = [e] := by
  unfold expanded
  split
  · rename_i i hi
    exact absurd hi (h i)
  · rfl

end Entry

/-- What replaces a line: its instruction's expansion, with the label in front of the first line. -/
def expandLine (line : Text × Nat) : List Text :=
  match SourceLine.read ⟨line.2, content line.1⟩ with
  | .ok ⟨_, label, some (.instr i)⟩ =>
    match i.expand with
    | .ok (first :: rest) => Entry.written label first.render :: rest.map InstrText.render
    | _ => [line.1]
  | _ => [line.1]

def expandSource (source : Text) : Text := joined ['\n'] ((numberedLines source).flatMap expandLine)

theorem expandLine_of_instr {line : Text} (n : Nat) {label : Option Text} {i first : InstrText}
    {rest : List InstrText} (hRead : Entry.read (content line) = .ok ⟨label, some (.instr i)⟩)
    (hExpand : i.expand = .ok (first :: rest)) :
    expandLine (line, n) = Entry.written label first.render :: rest.map InstrText.render := by
  rw [expandLine, SourceLine.read_eq, hRead]
  simp only [Except.map, hExpand]

theorem expandLine_of_ne {line : Text} (n : Nat) {e : Entry} (hRead : Entry.read (content line) = .ok e)
    (h : ∀ i, e.statement ≠ some (.instr i)) : expandLine (line, n) = [line] := by
  obtain ⟨label, statement⟩ := e
  rw [expandLine, SourceLine.read_eq, hRead]
  simp only [Except.map]
  split
  · rename_i hLine
    cases hLine
    exact absurd rfl (h _)
  · rfl

structure ReadAs (lines : List Text) (entries : List Entry) : Prop where
  feed : ∀ line ∈ lines, '\n' ∉ line
  read : (contentsOf lines).mapM Entry.read = .ok entries

namespace ReadAs

variable {lines lines' : List Text} {entries entries' : List Entry}

theorem nil : ReadAs [] [] := ⟨nofun, rfl⟩

theorem append (h : ReadAs lines entries) (h' : ReadAs lines' entries') :
    ReadAs (lines ++ lines') (entries ++ entries') where
  feed := List.forall_mem_append.mpr ⟨h.feed, h'.feed⟩
  read := by
    rw [contentsOf_append, List.mapM_append, h.read, h'.read]
    rfl

theorem single {line : Text} {e : Entry} (hFeed : '\n' ∉ line) (hNe : content line ≠ [])
    (hRead : Entry.read (content line) = .ok e) : ReadAs [line] [e] where
  feed := List.forall_mem_singleton.mpr hFeed
  read := by
    rw [contentsOf_cons_of_ne hNe, mapM_eq_ok_iff]
    exact .cons hRead .nil

theorem joined (h : ReadAs lines entries) :
    (contents (joined ['\n'] lines)).mapM Entry.read = .ok entries := by
  rw [contents_joined h.feed, h.read]

theorem written {label : Option Text} (hLabel : ∀ name ∈ label, isIdentifier name = true) {i : InstrText}
    {s : SymInstr} (hReads : SymInstr.Reads i s) (hLine : i.OneLine) :
    ReadAs [Entry.written label i.render] [⟨label, some (.instr i)⟩] := by
  have hUnmarked := hReads.unmarked_render hLine
  have hContent := Entry.content_written hLabel hUnmarked
  have hRead := Entry.read_written hLabel hUnmarked (hReads.wellFormed hLine).read_render
  refine single (Entry.not_mem_written hLabel hUnmarked (by decide)) ?_ ?_
  · rw [hContent]
    exact Entry.written_ne_nil hUnmarked
  · rw [hContent]
    exact hRead

theorem renders {instrs : List InstrText}
    (h : ∀ i ∈ instrs, i.OneLine ∧ ∃ s, SymInstr.Reads i s) :
    ReadAs (instrs.map InstrText.render) (instrs.map .ofInstr) := by
  induction instrs with
  | nil => exact nil
  | cons i rest ih =>
    obtain ⟨⟨hLine, s, hReads⟩, hRest⟩ := List.forall_mem_cons.mp h
    have hLabel : ∀ name ∈ (none : Option Text), isIdentifier name = true := nofun
    exact (written hLabel hReads hLine).append (ih hRest)

end ReadAs

namespace Entry

theorem Fitting.cases {e : Entry} (h : e.Fitting) :
    (∃ label i first rest, e = ⟨label, some (.instr i)⟩ ∧ i.expand = .ok (first :: rest) ∧
      ∀ c ∈ first :: rest, ∃ s, SymInstr.Reads c s) ∨ ∀ i, e.statement ≠ some (.instr i) := by
  obtain ⟨segment, items, hItems⟩ := h
  obtain ⟨label, statement⟩ := e
  by_cases hInstr : ∃ i, statement = some (.instr i)
  · obtain ⟨i, rfl⟩ := hInstr
    left
    cases segment with
    | data => cases hItems
    | text =>
      obtain ⟨instrs, hExpand, hRead⟩ := bind_eq_ok.mp hItems
      cases instrs with
      | nil => exact absurd (InstrText.expands_of_expand hExpand).length_eq (by decide)
      | cons first rest =>
        refine ⟨label, i, first, rest, rfl, hExpand, fun c hc => ?_⟩
        obtain ⟨s, hs⟩ := exists_of_forall₂ (mapM_eq_ok_iff.mp hRead) hc
        exact ⟨s, SymInstr.reads_of_read_eq hs⟩
  · exact .inr (fun i hi => hInstr ⟨i, hi⟩)

end Entry

theorem readAs_expandLine {line : Text} (n : Nat) {e : Entry} (hFeed : '\n' ∉ line)
    (hNe : content line ≠ []) (hRead : Entry.read (content line) = .ok e) (hFitting : e.Fitting) :
    ReadAs (expandLine (line, n)) e.expanded := by
  obtain ⟨label, i, first, rest, rfl, hExpand, hReads⟩ | hOther := hFitting.cases
  · obtain ⟨body, hSplit, hBody⟩ := Entry.exists_split_of_read hRead
    obtain ⟨hLabel, hChars⟩ := SourceLine.splitLabel_eq_ok hSplit
    -- The operands come from this line, so no line feed can break the lines that they are printed on.
    have hBodyFeed : '\n' ∉ body := fun hMem => hFeed (mem_of_mem_content (hChars _ hMem))
    have hLine := InstrText.oneLine_of_read hBodyFeed (Statement.instrRead_of_read hBody)
    have hLines := (InstrText.expands_of_expand hExpand).oneLine hLine
    obtain ⟨s, hFirst⟩ := hReads first List.mem_cons_self
    rw [expandLine_of_instr n hRead hExpand, Entry.expanded_of_instr hExpand]
    refine (ReadAs.written hLabel hFirst (hLines first List.mem_cons_self)).append (.renders ?_)
    exact fun c hc => ⟨hLines c (List.mem_cons_of_mem _ hc), hReads c (List.mem_cons_of_mem _ hc)⟩
  · rw [expandLine_of_ne n hRead hOther, Entry.expanded_of_ne hOther]
    exact .single hFeed hNe hRead

theorem readAs_expandLines {lines : List Text} {entries : List Entry} (h : ReadAs lines entries)
    (hFitting : ∀ e ∈ entries, e.Fitting) (n : Nat) :
    ReadAs ((lines.zipIdx n).flatMap expandLine) (entries.flatMap Entry.expanded) := by
  induction lines generalizing entries n with
  | nil =>
    obtain rfl := pure_eq_ok.mp h.read
    exact .nil
  | cons line rest ih =>
    obtain ⟨hLine, hRest⟩ := List.forall_mem_cons.mp h.feed
    have hRead := h.read
    rw [List.zipIdx_cons, List.flatMap_cons]
    by_cases hEmpty : content line = []
    · -- A line without content stays, and no entry comes from it.
      have hKept : expandLine (line, n) = [line] :=
        expandLine_of_ne n (e := ⟨none, none⟩) (by rw [hEmpty]; rfl) nofun
      have hNone : ReadAs [line] [] :=
        ⟨List.forall_mem_singleton.mpr hLine, by rw [contentsOf_cons_of_nil hEmpty]; rfl⟩
      rw [contentsOf_cons_of_nil hEmpty] at hRead
      rw [hKept]
      exact hNone.append (ih ⟨hRest, hRead⟩ hFitting (n + 1))
    · rw [contentsOf_cons_of_ne hEmpty, mapM_eq_ok_iff, List.forall₂_cons_left_iff] at hRead
      obtain ⟨e, entries, hEntry, hEntries, rfl⟩ := hRead
      obtain ⟨hHead, hTail⟩ := List.forall_mem_cons.mp hFitting
      rw [List.flatMap_cons]
      exact (readAs_expandLine n hLine hEmpty hEntry hHead).append
        (ih ⟨hRest, mapM_eq_ok_iff.mpr hEntries⟩ hTail (n + 1))

namespace Part

theorem add_ofInstr (p : Part .text) {i : InstrText} {s : SymInstr} (h : SymInstr.Reads i s) :
    p.add (.ofInstr i) = .ok (p.append [s]) := by
  have hItems : (Entry.ofInstr i).items .text = .ok [s] := by
    refine bind_eq_ok.mpr ⟨[i], h.expand_eq, mapM_eq_ok_iff.mpr ?_⟩
    exact .cons h.read_eq .nil
  exact bind_eq_ok.mpr ⟨p, rfl, bind_eq_ok.mpr ⟨[s], hItems, rfl⟩⟩

theorem run_ofInstr {p : Part .text} {instrs : List InstrText} {items : List SymInstr}
    (h : instrs.mapM SymInstr.read = .ok items) :
    p.run (instrs.map .ofInstr) = .ok (p.append items) := by
  rw [mapM_eq_ok_iff] at h
  induction h generalizing p with
  | nil => exact congrArg Except.ok (append_nil p).symm
  | @cons i s instrs items hHead _ ih =>
    have hAdd := p.add_ofInstr (SymInstr.reads_of_read_eq hHead)
    rw [List.map_cons, run, List.foldlM_cons, hAdd]
    exact ih.trans (congrArg Except.ok (append_append p [s] items))

/-- Adding an entry is adding its expansion. -/
theorem run_expanded {segment : Segment} {p p' : Part segment} {e : Entry} (h : p.add e = .ok p') :
    p.run e.expanded = .ok p' := by
  have hAdd := h
  obtain ⟨bound, items, hBound, hItems, rfl⟩ := add_eq_ok.mp h
  obtain ⟨label, i, first, rest, rfl, hExpand, -⟩ | hOther := Entry.Fitting.cases ⟨segment, items, hItems⟩
  · cases segment with
    | data => cases hItems
    | text =>
      obtain ⟨instrs, hInstrs, hReads⟩ := bind_eq_ok.mp hItems
      obtain rfl := Except.ok.inj (hExpand.symm.trans hInstrs)
      -- The label is bound in front of the first instruction, and the others have none.
      have hLabel : p.add ⟨label, some (.instr first)⟩ = bound.add (.ofInstr first) := by
        rw [add, hBound]
        rfl
      rw [Entry.expanded_of_instr hExpand, run, List.foldlM_cons, hLabel, ← List.foldlM_cons]
      exact run_ofInstr hReads
  · rw [Entry.expanded_of_ne hOther]
    exact run_cons_eq_ok.mpr ⟨_, hAdd, rfl⟩

theorem run_flatMap_expanded {segment : Segment} {p p' : Part segment} {entries : List Entry}
    (h : p.run entries = .ok p') : p.run (entries.flatMap Entry.expanded) = .ok p' := by
  induction entries generalizing p with
  | nil => exact h
  | cons e rest ih =>
    obtain ⟨mid, hAdd, hRest⟩ := run_cons_eq_ok.mp h
    exact run_append_eq_ok.mpr ⟨mid, run_expanded hAdd, ih hRest⟩

end Part

namespace Entry

theorem enters?_of_mem_expanded {e c : Entry} (hc : c ∈ e.expanded) : c = e ∨ c.enters? = none := by
  unfold expanded at hc
  split at hc
  · split at hc
    · right
      rcases List.mem_cons.mp hc with rfl | hc
      · rfl
      · obtain ⟨i, -, rfl⟩ := List.mem_map.mp hc
        rfl
    · exact .inl (List.mem_singleton.mp hc)
  · exact .inl (List.mem_singleton.mp hc)

theorem expanded_of_enters {e : Entry} {next : Segment} (h : e.enters? = some next) : e.expanded = [e] := by
  apply expanded_of_ne
  intro i hi
  rw [statement_of_enters h] at hi
  cases hi

theorem Unlabelled.expanded {e : Entry} (h : e.Unlabelled) : ∀ c ∈ e.expanded, c.Unlabelled := by
  intro c hc hSome
  rcases enters?_of_mem_expanded hc with rfl | hNone
  · exact h hSome
  · rw [hNone] at hSome
    cases hSome

end Entry

theorem entriesFrom_flatMap_expanded (segment current : Segment) (entries : List Entry) :
    entriesFrom segment current (entries.flatMap Entry.expanded) =
      (entriesFrom segment current entries).flatMap Entry.expanded := by
  induction entries generalizing current with
  | nil => rfl
  | cons e rest ih =>
    rw [List.flatMap_cons]
    cases hEnters : e.enters? with
    | some next =>
      rw [Entry.expanded_of_enters hEnters, List.singleton_append, entriesFrom_of_enters hEnters,
        entriesFrom_of_enters hEnters, ih]
    | none =>
      have hLies : ∀ c ∈ e.expanded, c.enters? = none := by
        intro c hc
        rcases Entry.enters?_of_mem_expanded hc with rfl | hNone
        · exact hEnters
        · exact hNone
      rw [entriesFrom_append_of_lies segment current hLies, entriesFrom_of_lies hEnters, ih]
      split
      · rw [List.flatMap_cons]
      · rfl

theorem Assembled.flatMap_expanded {bases : Bases} {entries : List Entry}
    {parts : (segment : Segment) → Part segment} {image : Image} (h : Assembled bases entries parts image) :
    Assembled bases (entries.flatMap Entry.expanded) parts image where
  unlabelled c hc := by
    obtain ⟨e, he, hc⟩ := List.mem_flatMap.mp hc
    exact (h.unlabelled e he).expanded c hc
  run segment := by
    rw [entriesIn, entriesFrom_flatMap_expanded]
    exact Part.run_flatMap_expanded (h.run segment)
  symbols := h.symbols
  data := h.data
  text := h.text

theorem Entry.expand_of_mem_expanded {e c : Entry} (hFitting : e.Fitting) (hc : c ∈ e.expanded)
    {i : InstrText} (hi : c.statement = some (.instr i)) : i.expand = .ok [i] := by
  obtain ⟨label, j, first, rest, rfl, hExpand, -⟩ | hOther := hFitting.cases
  · have hSelf := (InstrText.expands_of_expand hExpand).expand_eq
    rw [expanded_of_instr hExpand] at hc
    rcases List.mem_cons.mp hc with rfl | hc
    · cases hi
      exact hSelf _ List.mem_cons_self
    · obtain ⟨k, hk, rfl⟩ := List.mem_map.mp hc
      cases hi
      exact hSelf _ (List.mem_cons_of_mem _ hk)
  · rw [expanded_of_ne hOther] at hc
    rw [List.mem_singleton.mp hc] at hi
    exact absurd hi (hOther i)

theorem expansion_keeps_image :
    (∀ (bases : Bases) (source : Text) (image : Image), assemble bases source = .ok image →
      assemble bases (expandSource source) = .ok image ∧
      ∃ lines, SourceLine.readAll (expandSource source) = .ok lines ∧
        ∀ line ∈ lines, ∀ i, line.statement = some (.instr i) → i.expand = .ok [i]) ∧
    ∀ (i : InstrText) (instrs : List InstrText), i.expand = .ok instrs →
      (instrs.length = 1 ∨ instrs.length = 2) ∧ ∀ c ∈ instrs, c.expand = .ok [c] := by
  constructor
  · intro bases source image h
    obtain ⟨entries, parts, hRead, hAssembled⟩ := exists_assembled h
    have hFitting := hAssembled.fitting
    have hLines : ReadAs (lines source) entries := ⟨fun line hLine => feed_not_mem_lines hLine, hRead⟩
    have hExpanded := (readAs_expandLines hLines hFitting 1).joined
    refine ⟨assemble_of_assembled hExpanded hAssembled.flatMap_expanded, ?_⟩
    obtain ⟨lines, hReadAll, hEntries⟩ := SourceLine.exists_readAll hExpanded
    refine ⟨lines, hReadAll, fun line hLine i hi => ?_⟩
    have hMem : line.entry ∈ entries.flatMap Entry.expanded := by
      rw [← hEntries]
      exact List.mem_map_of_mem hLine
    obtain ⟨e, he, hEntry⟩ := List.mem_flatMap.mp hMem
    exact Entry.expand_of_mem_expanded (hFitting e he) hEntry hi
  · intro i instrs hExpand
    have hExpands := InstrText.expands_of_expand hExpand
    exact ⟨hExpands.length_eq, hExpands.expand_eq⟩

theorem expansion_keeps_image_blocks :
    let source := "a :li $t0,65536 # a\n.data # b: li\nm: .asciiz \"li # \"\n\n.text\n".toList ++
      "b: la $t1 , m\r\n  li $t2, -1\nblt $t1, $t2, a\nmove $t3, $t0".toList
    let expanded := "a: lui $at, 0x0001\nori $t0, $at, 0x0000\n.data # b: li\n".toList ++
      "m: .asciiz \"li # \"\n\n.text\nb: lui $at, %hi(m)\nori $t1, $at, %lo(m)\n".toList ++
      "addiu $t2, $zero, -1\nslt $at, $t1, $t2\nbne $at, $zero, a\nadd $t3, $zero, $t0".toList
    expandSource source = expanded ∧
      ∃ image, assemble {} source = .ok image ∧ image.text.length = 8 ∧ assemble {} expanded = .ok image := by
  have hAssemble : ∃ image,
      assemble {} ("a :li $t0,65536 # a\n.data # b: li\nm: .asciiz \"li # \"\n\n.text\n".toList ++
        "b: la $t1 , m\r\n  li $t2, -1\nblt $t1, $t2, a\nmove $t3, $t0".toList) = .ok image ∧
      image.text.length = 8 := ⟨_, rfl, rfl⟩
  obtain ⟨image, hImage, hLength⟩ := hAssemble
  obtain ⟨hAgain, -⟩ := expansion_keeps_image.1 {} _ image hImage
  intro source expanded
  have hExpanded : expandSource source = expanded := by decide +kernel
  exact ⟨hExpanded, image, hImage, hLength, hExpanded ▸ hAgain⟩

end MipsAsm
