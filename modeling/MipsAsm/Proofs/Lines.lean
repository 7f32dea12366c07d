import MipsAsm.Proofs.Blanks
import MipsAsm.Proofs.Outcome
import MipsAsm.Source.Line

/-!
The lines of a source without their numbers. A line's content is what is left of it without comment and
outer blanks, and its entry is the label and the statement that the content is read as. A source is
read as the entries of its contents; carriage returns and lines without content add nothing.
-/

set_option autoImplicit false

namespace MipsAsm

open Outcome

theorem Scan.beforeComment_eq_self {t : Text} (h : '#' ∉ t) (scan : Scan) : scan.beforeComment t = t := by
  induction t generalizing scan with
  | nil => rfl
  | cons c rest ih =>
    have hHead : c ≠ '#' := fun hEq => h (hEq ▸ List.mem_cons_self)
    have hRest : '#' ∉ rest := fun hMem => h (List.mem_cons_of_mem _ hMem)
    rw [beforeComment, if_neg (fun hBoth => hHead hBoth.2), ih hRest]

theorem stripComment_eq_self {t : Text} (h : '#' ∉ t) : stripComment t = t :=
  Scan.beforeComment_eq_self h .code

/-- A last character belongs to the comment, if there is one. -/
theorem Scan.beforeComment_append {c : Char} (hc : c ≠ '#') (t : Text) (scan : Scan) :
    scan.beforeComment (t ++ [c]) = scan.beforeComment t ∨
      scan.beforeComment (t ++ [c]) = scan.beforeComment t ++ [c] := by
  induction t generalizing scan with
  | nil =>
    right
    exact if_neg (fun hBoth => hc hBoth.2)
  | cons first rest ih =>
    rw [List.cons_append, beforeComment, beforeComment]
    split
    · exact .inl rfl
    · rcases ih (scan.next first) with hSame | hMore
      · exact .inl (by rw [hSame])
      · exact .inr (by rw [hMore, List.cons_append])

theorem Scan.beforeComment_prefix (scan : Scan) (t : Text) : scan.beforeComment t <+: t := by
  induction t generalizing scan with
  | nil => exact List.prefix_rfl
  | cons c rest ih =>
    rw [beforeComment]
    split
    · exact List.nil_prefix
    · exact (List.prefix_cons_inj c).mpr (ih _)

namespace Text

/-- What a line says, without its comment and outer blanks. -/
def content (line : Text) : Text := trim (stripComment line)

theorem mem_of_mem_content {line : Text} {c : Char} (h : c ∈ content line) : c ∈ line :=
  (Scan.code.beforeComment_prefix line).subset (mem_of_mem_trim h)

theorem content_append_blank {c : Char} (hBlank : isBlank c = true) (line : Text) :
    content (line ++ [c]) = content line := by
  have hComment : c ≠ '#' := by
    rintro rfl
    cases hBlank
  rw [content, content]
  rcases Scan.beforeComment_append hComment line .code with hSame | hMore
  · exact congrArg trim hSame
  · exact (congrArg trim hMore).trans (trim_append_blank hBlank _)

theorem content_dropReturn (line : Text) : content (dropReturn line) = content line := by
  rw [dropReturn, dropLast?]
  split
  · rename_i hLast
    obtain ⟨init, rfl⟩ := List.getLast?_eq_some_iff.mp hLast
    rw [Option.getD_some, List.dropLast_concat, content_append_blank rfl]
  · rfl

/-- The contents of the lines that have some. -/
def contentsOf (lines : List Text) : List Text := (lines.map content).filter (!·.isEmpty)

def contents (source : Text) : List Text := contentsOf (lines source)

theorem contentsOf_append (front back : List Text) :
    contentsOf (front ++ back) = contentsOf front ++ contentsOf back := by
  rw [contentsOf, List.map_append, List.filter_append]
  rfl

theorem contentsOf_cons_of_nil {line : Text} (h : content line = []) (rest : List Text) :
    contentsOf (line :: rest) = contentsOf rest := by
  simp [contentsOf, h]

theorem contentsOf_cons_of_ne {line : Text} (h : content line ≠ []) (rest : List Text) :
    contentsOf (line :: rest) = content line :: contentsOf rest := by
  simp [contentsOf, h]

theorem contents_eq (source : Text) : contents source = contentsOf (source.splitOn '\n') := by
  rw [contents, contentsOf, contentsOf, lines]
  obtain hNil | ⟨init, last, hPieces⟩ := (source.splitOn '\n').eq_nil_or_concat
  · exact absurd hNil (List.splitOn_ne_nil _ _)
  · have hInit : (init.map dropReturn).map content = init.map content := by
      rw [List.map_map]
      exact List.map_congr_left (fun line _ => content_dropReturn line)
    rw [hPieces, List.concat_eq_append, List.dropLast_concat, List.getLast?_concat, List.map_append,
      List.map_append, hInit, List.filter_append, List.filter_append]
    congr 1
    cases last with
    | nil => rfl
    | cons c rest => rfl

theorem feed_not_mem_lines {source line : Text} (h : line ∈ lines source) : '\n' ∉ line := by
  intro hFeed
  rw [lines, List.mem_append, List.mem_map, List.mem_filter] at h
  rcases h with ⟨piece, hPiece, rfl⟩ | ⟨hLast, -⟩
  · have hMem : '\n' ∈ piece := by
      rw [dropReturn, dropLast?] at hFeed
      split at hFeed
      · exact List.dropLast_subset _ hFeed
      · exact hFeed
    exact (mem_of_mem_splitOn (List.dropLast_subset _ hPiece) hMem).2 rfl
  · exact (mem_of_mem_splitOn (List.mem_of_getLast? (Option.mem_toList.mp hLast)) hFeed).2 rfl

theorem contents_append (front back : Text) :
    contents (front ++ '\n' :: back) = contents front ++ contents back := by
  rw [contents_eq, contents_eq, contents_eq, List.splitOn_append_cons_self, contentsOf_append]

theorem contents_joined {parts : List Text} (hFeed : ∀ part ∈ parts, '\n' ∉ part) :
    contents (joined ['\n'] parts) = contentsOf parts := by
  cases parts with
  | nil => rfl
  | cons first rest =>
    rw [contents_eq, joined, List.splitOn_intercalate '\n' hFeed (List.cons_ne_nil _ _)]

/-- A line without directive, comment, label and literal. -/
structure Unmarked (line : Text) : Prop where
  ne_nil : line ≠ []
  trimmed : Trimmed line
  not_dot : line.head? ≠ some '.'
  not_mem : ∀ c ∈ "\n#:\"".toList, c ∉ line

/-- A line that is read as one instruction, all of it. -/
structure Bare (line : Text) : Prop where
  ne_nil : line ≠ []
  trimmed : Trimmed line
  not_mem : ∀ c ∈ "\n\r#:\".".toList, c ∉ line

theorem Bare.unmarked {line : Text} (h : Bare line) : Unmarked line where
  ne_nil := h.ne_nil
  trimmed := h.trimmed
  not_dot hDot := h.not_mem '.' (by decide) (List.mem_of_mem_head? hDot)
  not_mem c hc := h.not_mem c (List.Sublist.mem hc (by decide))

theorem content_eq_self {line : Text} (hTrimmed : Trimmed line) (hComment : '#' ∉ line) :
    content line = line := by
  rw [content, stripComment_eq_self hComment, hTrimmed.trim_eq]

theorem contentsOf_eq_self {parts : List Text} (h : ∀ part ∈ parts, Unmarked part) :
    contentsOf parts = parts := by
  have hContent : parts.map content = parts := by
    apply (List.map_congr_left _).trans (List.map_id parts)
    intro part hPart
    exact content_eq_self (h part hPart).trimmed ((h part hPart).not_mem '#' (by decide))
  rw [contentsOf, hContent, List.filter_eq_self]
  intro part hPart
  simpa using (h part hPart).ne_nil

end Text

/-- A label and a statement, as one line has them. -/
structure Entry where
  label : Option Text
  statement : Option Statement
  deriving DecidableEq, Repr

namespace Entry

def read (content : Text) : Except Fault Entry := do
  let (label, body) ← SourceLine.splitLabel content
  if body.isEmpty then return ⟨label, none⟩
  return ⟨label, some (← Statement.read body)⟩

def ofInstr (i : InstrText) : Entry := ⟨none, some (.instr i)⟩

end Entry

theorem Statement.instrRead_of_read {body : Text} {i : InstrText}
    (h : Statement.read body = .ok (.instr i)) : InstrText.read body = .ok i := by
  simp only [Statement.read] at h
  split at h
  · split at h
    · cases h
    split at h
    · cases h
    split at h
    · obtain ⟨bytes, -, hBytes⟩ := map_eq_ok.mp h
      cases hBytes
    · cases h
  · obtain ⟨found, hFound, hInstr⟩ := map_eq_ok.mp h
    cases hInstr
    exact hFound

open Text

namespace SourceLine

def entry (line : SourceLine) : Entry := ⟨line.label, line.statement⟩

theorem read_eq (site : Site) :
    SourceLine.read site = (Entry.read site.text).map fun e => ⟨site, e.label, e.statement⟩ := by
  rw [SourceLine.read, Entry.read]
  cases splitLabel site.text with
  | error fault => rfl
  | ok halves =>
    change (if halves.2.isEmpty = true then _ else _) = Except.map _ (if halves.2.isEmpty = true then _ else _)
    split
    · rfl
    · cases Statement.read halves.2 <;> rfl

theorem entry_of_read {site : Site} {line : SourceLine} (h : SourceLine.read site = .ok line) :
    Entry.read site.text = .ok line.entry := by
  rw [read_eq] at h
  obtain ⟨e, hEntry, rfl⟩ := map_eq_ok.mp h
  exact hEntry

theorem map_text_sites (source : Text) : (sites source).map Site.text = contents source := by
  rw [sites, numberedLines, contents, contentsOf]
  -- The numbers play no part, so the induction may start at any of them.
  generalize lines source = raw, 1 = n
  induction raw generalizing n with
  | nil => rfl
  | cons first rest ih =>
    rw [List.zipIdx_cons, List.map_cons, List.filterMap_cons, List.filter_cons, ← ih (n + 1)]
    by_cases hEmpty : trim (stripComment first) = []
    · simp [content, hEmpty]
    · simp [content, hEmpty]

/-- Reading the lines of a source is reading its contents. -/
theorem entries_of_readAll {source : Text} {lines : List SourceLine} (h : readAll source = .ok lines) :
    (contents source).mapM Entry.read = .ok (lines.map entry) := by
  rw [← map_text_sites, mapM_eq_ok_iff, List.forall₂_map_left_iff, List.forall₂_map_right_iff]
  exact (mapM_eq_ok_iff.mp h).imp (fun site line hLine => entry_of_read (locate_eq_ok.mp hLine))

theorem exists_readAll {source : Text} {entries : List Entry}
    (h : (contents source).mapM Entry.read = .ok entries) :
    ∃ lines, readAll source = .ok lines ∧ lines.map entry = entries := by
  rw [← map_text_sites, mapM_eq_ok_iff, List.forall₂_map_left_iff] at h
  simp only [readAll, mapM_eq_ok_iff, locate_eq_ok]
  generalize sites source = places at h
  induction h with
  | nil => exact ⟨[], .nil, rfl⟩
  | @cons site e _ _ hHead _ ih =>
    obtain ⟨lines, hLines, rfl⟩ := ih
    exact ⟨⟨site, e.label, e.statement⟩ :: lines, .cons (by rw [read_eq, hHead]; rfl) hLines, rfl⟩

theorem splitLabel_of_takeWhile {t : Text} (h : ':' ∉ t.takeWhile (· ≠ '"')) :
    splitLabel t = .ok (none, t) := by
  have hRest : ∀ body, t.dropWhile (fun c => c ≠ ':' && c ≠ '"') ≠ ':' :: body := by
    intro body hBody
    induction t with
    | nil => cases hBody
    | cons c t ih =>
      by_cases hQuote : c = '"'
      · rw [hQuote] at hBody
        cases hBody
      · rw [List.takeWhile_cons_of_pos (by simpa using hQuote)] at h
        obtain ⟨hHead, hTail⟩ := not_or.mp (List.mem_cons.not.mp h)
        have hColon : c ≠ ':' := Ne.symm hHead
        rw [List.dropWhile_cons_of_pos (by simp [hColon, hQuote])] at hBody
        exact ih hTail hBody
  simp only [splitLabel]

theorem splitLabel_eq_ok {t body : Text} {label : Option Text} (h : splitLabel t = .ok (label, body)) :
    (∀ name ∈ label, isIdentifier name = true) ∧ ∀ c ∈ body, c ∈ t := by
  simp only [splitLabel] at h
  split at h
  · rename_i rest hRest
    split at h
    · rename_i hName
      cases h
      refine ⟨fun name hMem => Option.mem_some.mp hMem ▸ hName, fun c hc => ?_⟩
      have hMem : c ∈ ':' :: rest := List.mem_cons_of_mem _ (mem_of_mem_trim hc)
      rw [← hRest] at hMem
      exact (List.dropWhile_suffix _).subset hMem
    · cases h
  · cases h
    exact ⟨nofun, fun c hc => hc⟩

end SourceLine

namespace Entry

/-- The line of a source on which an instruction stands behind an optional label. -/
def written (label : Option Text) (line : Text) : Text :=
  match label with
  | none => line
  | some name => name ++ ": ".toList ++ line

theorem read_of_split {t body : Text} {label : Option Text} {statement : Statement}
    (hSplit : SourceLine.splitLabel t = .ok (label, body)) (hBody : body ≠ [])
    (hRead : Statement.read body = .ok statement) : Entry.read t = .ok ⟨label, some statement⟩ := by
  refine bind_eq_ok.mpr ⟨(label, body), hSplit, ?_⟩
  dsimp only
  rw [if_neg (by simpa using hBody)]
  exact bind_eq_ok.mpr ⟨statement, hRead, rfl⟩

theorem exists_split_of_read {t : Text} {label : Option Text} {statement : Statement}
    (h : Entry.read t = .ok ⟨label, some statement⟩) :
    ∃ body, SourceLine.splitLabel t = .ok (label, body) ∧ Statement.read body = .ok statement := by
  obtain ⟨⟨found, body⟩, hSplit, h⟩ := bind_eq_ok.mp h
  dsimp only at h
  split at h
  · cases h
  · obtain ⟨read, hRead, h⟩ := bind_eq_ok.mp h
    cases h
    exact ⟨body, hSplit, hRead⟩

theorem read_of_unmarked_body {t line : Text} {label : Option Text}
    (hSplit : SourceLine.splitLabel t = .ok (label, line)) (h : Unmarked line) {i : InstrText}
    (hRead : InstrText.read line = .ok i) : Entry.read t = .ok ⟨label, some (.instr i)⟩ := by
  refine read_of_split hSplit h.ne_nil ?_
  rw [Statement.read, if_neg h.not_dot, hRead]
  rfl

theorem read_of_unmarked {line : Text} (h : Unmarked line) {i : InstrText}
    (hRead : InstrText.read line = .ok i) : Entry.read line = .ok (ofInstr i) :=
  read_of_unmarked_body (SourceLine.splitLabel_of_takeWhile fun hColon =>
    h.not_mem ':' (by decide) ((List.takeWhile_prefix _).subset hColon)) h hRead

end Entry

namespace SourceLine

/-- The line is the instruction, without a label. -/
def Writes (line : SourceLine) (i : InstrText) : Prop :=
  line.label = none ∧ line.statement = some (.instr i)

/-- Reading joined instruction texts gives one line for each. -/
theorem readAll_joined {parts : List Text} {instrs : List InstrText}
    (hRead : List.Forall₂ (fun part i => Bare part ∧ InstrText.read part = .ok i) parts instrs) :
    ∃ lines, readAll (joined ['\n'] parts) = .ok lines ∧ List.Forall₂ Writes lines instrs := by
  have hParts : ∀ part ∈ parts, Unmarked part := by
    intro part hPart
    obtain ⟨i, hBare, -⟩ := exists_of_forall₂ hRead hPart
    exact hBare.unmarked
  have hEntries : (contents (joined ['\n'] parts)).mapM Entry.read = .ok (instrs.map .ofInstr) := by
    rw [contents_joined (fun part hPart => (hParts part hPart).not_mem '\n' (by decide)),
      contentsOf_eq_self hParts, mapM_eq_ok_iff, List.forall₂_map_right_iff]
    exact hRead.imp (fun part i hPart => Entry.read_of_unmarked hPart.1.unmarked hPart.2)
  obtain ⟨lines, hLines, hEntries⟩ := exists_readAll hEntries
  refine ⟨lines, hLines, ?_⟩
  have hEach : List.Forall₂ (fun line i => entry line = .ofInstr i) lines instrs := by
    rw [← List.forall₂_map_left_iff (R := fun e i => e = Entry.ofInstr i), hEntries,
      List.forall₂_map_left_iff, List.forall₂_same]
    exact fun _ _ => rfl
  exact hEach.imp (fun line i hLine => Entry.mk.inj hLine)

end SourceLine

end MipsAsm
