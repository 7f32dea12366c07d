import Mathlib.Algebra.Ring.Nat
import MipsAsm.Program.Image
import MipsAsm.Proofs.Outcome

/-!
Placement: where instructions, strings and labels go. One step of the layout is described component by
component, and a whole run by what it keeps: the next free address of a segment is as many words behind
the base as the lines so far have emitted, and the symbol table holds the labels so far.
-/

set_option autoImplicit false

namespace MipsAsm

open Outcome

namespace Bindings

theorem lookup_cons (key : Text) (entry : Text × Word) (rest : List (Text × Word)) :
    (entry :: rest).lookup key = if key = entry.1 then some entry.2 else rest.lookup key := by
  rw [List.lookup_cons]
  by_cases hKey : key = entry.1
  · rw [if_pos hKey, beq_iff_eq.mpr hKey]
  · rw [if_neg hKey, beq_eq_false_iff_ne.mpr hKey]

theorem lookup_addEntry (name : Text) (address : Word) (entries : List (Text × Word)) (key : Text) :
    (addEntry name address entries).lookup key =
      if key = name then some address else entries.lookup key := by
  induction entries with
  | nil => exact lookup_cons key (name, address) []
  | cons entry rest ih =>
    rw [addEntry]
    split
    · exact lookup_cons key (name, address) _
    split
    · rename_i hEntry
      rw [lookup_cons, lookup_cons, ← hEntry]
      by_cases hKey : key = name
      · rw [if_pos hKey, if_pos hKey]
      · rw [if_neg hKey, if_neg hKey, if_neg hKey]
    · rename_i hEntry
      rw [lookup_cons, lookup_cons, ih]
      by_cases hKey : key = name
      · rw [if_pos hKey, if_pos hKey, if_neg (hKey ▸ hEntry)]
      · rw [if_neg hKey, if_neg hKey]

theorem get?_insert (b : Bindings) (name : Text) (address : Word) (key : Text) :
    (b.insert name address).get? key = if key = name then some address else b.get? key :=
  lookup_addEntry name address b.entries key

end Bindings

namespace Symbols

variable {s s' : Symbols} {segment : Segment} {name : Text} {address : Word}

theorem lookup_eq_ok_iff : s.lookup segment name = .ok address ↔ s.get? segment name = some address := by
  unfold lookup
  cases s.get? segment name with
  | none => simp
  | some found => simp

theorem get?_eq_none_of_bind (h : s.bind segment name address = .ok s') : s.get? segment name = none := by
  unfold bind at h
  split at h
  · cases h
  · rename_i hNew
    exact Option.not_isSome_iff_eq_none.mp hNew

/-- Binding a label adds one entry to its segment. -/
theorem get?_bind (h : s.bind segment name address = .ok s') (other : Segment) (key : Text) :
    s'.get? other key = if other = segment ∧ key = name then some address else s.get? other key := by
  have hNew := get?_eq_none_of_bind h
  simp only [bind, hNew, Option.isSome_none, Bool.false_eq_true, if_false] at h
  cases segment with
  | text =>
    cases h
    cases other with
    | text =>
      simp only [true_and]
      exact s.text.get?_insert name address key
    | data => simp [get?, ofSegment]
  | data =>
    cases h
    cases other with
    | text => simp [get?, ofSegment]
    | data =>
      simp only [true_and]
      exact s.data.get?_insert name address key

end Symbols

/-- The address of the word that is `n` words behind `base`. Addresses wrap around. -/
def wordAddress (base : Word) (n : Nat) : Word := base + BitVec.ofNat 32 (4 * n)

@[simp] theorem wordAddress_zero (base : Word) : wordAddress base 0 = base := by
  simp [wordAddress]

theorem wordAddress_wordAddress (base : Word) (m n : Nat) :
    wordAddress (wordAddress base m) n = wordAddress base (m + n) := by
  rw [wordAddress, wordAddress, wordAddress, Nat.mul_add, BitVec.ofNat_add, BitVec.add_assoc]

theorem wordAddress_succ (base : Word) (n : Nat) : wordAddress base n + 4 = wordAddress base (n + 1) :=
  wordAddress_wordAddress base n 1

theorem map_wordAddress_range (base : Word) (m n : Nat) :
    (List.range (m + n)).map (wordAddress base) =
      (List.range m).map (wordAddress base) ++ (List.range n).map (wordAddress (wordAddress base m)) := by
  rw [List.range_add, List.map_append, List.map_map]
  congr 1
  exact List.map_congr_left (fun k _ => (wordAddress_wordAddress base m k).symm)

namespace SourceLine

/-- The machine instructions that the line stands for. -/
def concrete (line : SourceLine) : List InstrText :=
  match line.statement with
  | some (.instr i) => i.expand.toOption.getD []
  | _ => []

theorem concrete_eq {line : SourceLine} {i : InstrText} {instrs : List InstrText}
    (hStatement : line.statement = some (.instr i)) (hExpand : i.expand = .ok instrs) :
    line.concrete = instrs := by
  simp [concrete, hStatement, hExpand, Except.toOption]

def dataWords (line : SourceLine) : List Word :=
  match line.statement with
  | some (.string bytes) => Word.ofString bytes
  | _ => []

/-- The segment that the line switches to. -/
def enters? (line : SourceLine) : Option Segment :=
  match line.statement with
  | some (.segment segment) => some segment
  | _ => none

/-- How many words the line adds to a segment. -/
def wordCount : Segment → SourceLine → Nat
  | .text, line => line.concrete.length
  | .data, line => line.dataWords.length

end SourceLine

/-- Strings stand in the data segment and instructions in the text segment. -/
def Statement.Belongs : Statement → Segment → Prop
  | .segment _, _ => True
  | .string _, lies => lies = .data
  | .instr _, lies => lies = .text

/-- The segment in which the line behind `lines` lies. -/
def segmentAfter (lines : List SourceLine) : Segment :=
  lines.foldl (fun segment line => line.enters?.getD segment) .text

@[simp] theorem segmentAfter_append (lines : List SourceLine) (line : SourceLine) :
    segmentAfter (lines ++ [line]) = line.enters?.getD (segmentAfter lines) :=
  List.foldl_append

def wordCount (segment : Segment) (lines : List SourceLine) : Nat :=
  (lines.map (SourceLine.wordCount segment)).sum

@[simp] theorem wordCount_append (segment : Segment) (lines : List SourceLine) (line : SourceLine) :
    wordCount segment (lines ++ [line]) = wordCount segment lines + line.wordCount segment := by
  simp [wordCount]

theorem length_flatMap_concrete (lines : List SourceLine) :
    (lines.flatMap SourceLine.concrete).length = wordCount .text lines :=
  List.length_flatMap

def Bases.ofSegment (bases : Bases) : Segment → Word
  | .text => bases.text
  | .data => bases.data

/-- A line of the segment has the label `name`, and `above` are the lines before it. -/
def Declares (lines : List SourceLine) (segment : Segment) (name : Text) (above : List SourceLine) : Prop :=
  ∃ line rest, lines = above ++ line :: rest ∧ line.label = some name ∧ segmentAfter above = segment

theorem not_declares_nil {segment : Segment} {name : Text} {above : List SourceLine} :
    ¬Declares [] segment name above := by
  rintro ⟨line, rest, hSplit, -⟩
  cases (List.append_eq_nil_iff.mp hSplit.symm).2

theorem declares_append_iff {lines : List SourceLine} {last : SourceLine} {segment : Segment} {name : Text}
    {above : List SourceLine} :
    Declares (lines ++ [last]) segment name above ↔
      Declares lines segment name above ∨
        above = lines ∧ last.label = some name ∧ segmentAfter lines = segment := by
  constructor
  · rintro ⟨line, rest, hSplit, hLabel, hSegment⟩
    rcases List.eq_nil_or_concat rest with rfl | ⟨rest, final, rfl⟩
    · obtain ⟨rfl, ⟨⟩⟩ := List.append_inj' hSplit rfl
      exact .inr ⟨rfl, hLabel, hSegment⟩
    · have hInit : lines ++ [last] = (above ++ line :: rest) ++ [final] := by simpa using hSplit
      obtain ⟨rfl, -⟩ := List.append_inj' hInit rfl
      exact .inl ⟨line, rest, rfl, hLabel, hSegment⟩
  · rintro (⟨line, rest, rfl, hLabel, hSegment⟩ | ⟨rfl, hLabel, hSegment⟩)
    · exact ⟨line, rest ++ [last], by simp, hLabel, hSegment⟩
    · exact ⟨last, [], rfl, hLabel, hSegment⟩

/-- The instructions as they are read, at consecutive addresses. -/
structure PlacedFrom (address : Word) (concrete : List InstrText) (placed : List Placed) : Prop where
  read : List.Forall₂ (fun i p => SymInstr.read i = .ok p.instr) concrete placed
  address : placed.map Placed.address = (List.range concrete.length).map (wordAddress address)

theorem PlacedFrom.nil (address : Word) : PlacedFrom address [] [] := ⟨.nil, rfl⟩

theorem PlacedFrom.append {address : Word} {front back : List InstrText} {placed placed' : List Placed}
    (hFront : PlacedFrom address front placed)
    (hBack : PlacedFrom (wordAddress address front.length) back placed') :
    PlacedFrom address (front ++ back) (placed ++ placed') where
  read := List.rel_append hFront.read hBack.read
  address := by
    rw [List.map_append, List.length_append, map_wordAddress_range, hFront.address, hBack.address]

theorem PlacedFrom.address_eq {address : Word} {concrete : List InstrText} {placed : List Placed}
    (h : PlacedFrom address concrete placed) {k : Nat} {p : Placed} (hk : placed[k]? = some p) :
    p.address = wordAddress address k := by
  have hLength : k < concrete.length := by
    rw [h.read.length_eq]
    exact (List.getElem?_eq_some_iff.mp hk).1
  have hAddress := congrArg (fun addresses => addresses[k]?) h.address
  simp only [List.getElem?_map, hk, List.getElem?_range hLength, Option.map_some] at hAddress
  exact Option.some.inj hAddress

theorem PlacedFrom.exists_getElem? {address : Word} {concrete : List InstrText} {placed : List Placed}
    (h : PlacedFrom address concrete placed) {k : Nat} {i : InstrText} (hk : concrete[k]? = some i) :
    ∃ p, placed[k]? = some p ∧ SymInstr.read i = .ok p.instr ∧ p.address = wordAddress address k := by
  obtain ⟨p, hp, hRead⟩ := exists_getElem?_of_forall₂ h.read hk
  exact ⟨p, hp, hRead, h.address_eq hp⟩

namespace Layout

variable {l l' : Layout}

theorem foldlM_emitInstr {site : Site} {concrete : List InstrText}
    (h : concrete.foldlM (fun l i => do return l.emitInstr site (← SymInstr.read i)) l = .ok l') :
    ∃ placed, PlacedFrom l.textNext concrete placed ∧
      placed.map Placed.site = concrete.map (fun _ => site) ∧
      l' = { l with textNext := wordAddress l.textNext concrete.length, text := l.text ++ placed } := by
  refine foldlM_invariant (fun before now => ∃ placed, PlacedFrom l.textNext before placed ∧
    placed.map Placed.site = before.map (fun _ => site) ∧
    now = { l with textNext := wordAddress l.textNext before.length, text := l.text ++ placed }) ?_ ?_ h
  · exact ⟨[], .nil _, rfl, by simp⟩
  · rintro before i - next ⟨placed, hPlaced, hSites, rfl⟩ hNext
    obtain ⟨s, hRead, hEmit⟩ := bind_eq_ok.mp hNext
    refine ⟨placed ++ [⟨wordAddress l.textNext before.length, site, s⟩], hPlaced.append ?_, ?_, ?_⟩
    · exact ⟨.cons hRead .nil, by simp⟩
    · simp [hSites]
    · have hText : (l.text ++ placed).push ⟨wordAddress l.textNext before.length, site, s⟩ =
          l.text ++ (placed ++ [⟨wordAddress l.textNext before.length, site, s⟩]) :=
        Array.toList_inj.mp (by simp)
      rw [← pure_eq_ok.mp hEmit, emitInstr, wordAddress_succ, hText, List.length_append]
      rfl

/-- The symbols behind a line's label. -/
def Labelled (l : Layout) (symbols : Symbols) : Option Text → Prop
  | none => symbols = l.symbols
  | some name => l.symbols.bind l.segment name l.here = .ok symbols

theorem exists_labelled {label : Option Text} (h : l.bindLabel label = .ok l') :
    ∃ symbols, l.Labelled symbols label ∧ l' = { l with symbols } := by
  cases label with
  | none =>
    cases h
    exact ⟨l.symbols, rfl, rfl⟩
  | some name =>
    obtain ⟨symbols, hBind, hLayout⟩ := bind_eq_ok.mp h
    exact ⟨symbols, hBind, (pure_eq_ok.mp hLayout).symm⟩

/-- What one line does to each part of a layout. -/
structure Stepped (l : Layout) (line : SourceLine) (l' : Layout) : Prop where
  segment : l'.segment = line.enters?.getD l.segment
  belongs : ∀ statement, line.statement = some statement → statement.Belongs l.segment
  expand : ∀ i, line.statement = some (.instr i) → i.expand = .ok line.concrete
  text : ∃ placed, PlacedFrom l.textNext line.concrete placed ∧ l'.text.toList = l.text.toList ++ placed
  sites : l'.text.toList.map Placed.site =
    l.text.toList.map Placed.site ++ line.concrete.map (fun _ => line.site)
  textNext : l'.textNext = wordAddress l.textNext line.concrete.length
  data : l'.data.toList = l.data.toList ++ line.dataWords
  dataNext : l'.dataNext = wordAddress l.dataNext line.dataWords.length
  symbols : l.Labelled l'.symbols line.label

theorem stepped_of_bare {site : Site} {label : Option Text} (h : l.bindLabel label = .ok l') :
    l.Stepped ⟨site, label, none⟩ l' := by
  obtain ⟨symbols, hSymbols, rfl⟩ := exists_labelled h
  exact
    { segment := rfl
      belongs := nofun
      expand := nofun
      text := ⟨[], .nil _, (List.append_nil _).symm⟩
      sites := (List.append_nil _).symm
      textNext := (wordAddress_zero _).symm
      data := (List.append_nil _).symm
      dataNext := (wordAddress_zero _).symm
      symbols := hSymbols }

theorem stepped_of_string {site : Site} {label : Option Text} {bytes : List UInt8} {bound : Layout}
    (hBind : l.bindLabel label = .ok bound) (h : bound.emit site (.string bytes) = .ok l') :
    l.Stepped ⟨site, label, some (.string bytes)⟩ l' := by
  obtain ⟨symbols, hSymbols, rfl⟩ := exists_labelled hBind
  simp only [emit] at h
  split at h
  · rename_i hData
    cases h
    exact
      { segment := rfl
        belongs := by
          rintro _ ⟨⟩
          exact hData
        expand := nofun
        text := ⟨[], .nil _, (List.append_nil _).symm⟩
        sites := (List.append_nil _).symm
        textNext := (wordAddress_zero _).symm
        data := by simp [emitWords, SourceLine.dataWords]
        dataNext := rfl
        symbols := hSymbols }
  · cases h

theorem stepped_of_instr {site : Site} {label : Option Text} {i : InstrText} {bound : Layout}
    (hBind : l.bindLabel label = .ok bound) (h : bound.emit site (.instr i) = .ok l') :
    l.Stepped ⟨site, label, some (.instr i)⟩ l' := by
  obtain ⟨symbols, hSymbols, rfl⟩ := exists_labelled hBind
  simp only [emit] at h
  split at h
  · rename_i hText
    obtain ⟨concrete, hExpand, hEmit⟩ := bind_eq_ok.mp h
    obtain ⟨placed, hPlaced, hSites, rfl⟩ := foldlM_emitInstr hEmit
    have hConcrete : SourceLine.concrete ⟨site, label, some (.instr i)⟩ = concrete :=
      SourceLine.concrete_eq rfl hExpand
    exact
      { segment := rfl
        belongs := by
          rintro _ ⟨⟩
          exact hText
        expand := by
          intro other hOther
          cases hOther
          rw [hConcrete, hExpand]
        text := ⟨placed, hConcrete ▸ hPlaced, by simp⟩
        sites := by rw [hConcrete, ← hSites]; simp
        textNext := by rw [hConcrete]
        data := (List.append_nil _).symm
        dataNext := (wordAddress_zero _).symm
        symbols := hSymbols }
  · cases h

theorem stepped_of_step {line : SourceLine} (h : l.step line = .ok l') : l.Stepped line l' := by
  obtain ⟨site, label, statement⟩ := line
  cases statement with
  | none =>
    have hBind : l.bindLabel label = .ok l' := by
      cases label <;> exact h
    exact stepped_of_bare hBind
  | some statement =>
    cases statement with
    | segment segment =>
      cases label with
      | none =>
        cases h
        exact
          { segment := rfl
            belongs := by
              rintro _ ⟨⟩
              trivial
            expand := nofun
            text := ⟨[], .nil _, (List.append_nil _).symm⟩
            sites := (List.append_nil _).symm
            textNext := (wordAddress_zero _).symm
            data := (List.append_nil _).symm
            dataNext := (wordAddress_zero _).symm
            symbols := rfl }
      | some name => cases h
    | string bytes =>
      have hEmit : (do (← l.bindLabel label).emit site (.string bytes)) = .ok l' := by
        cases label <;> exact h
      obtain ⟨bound, hBind, hEmit⟩ := bind_eq_ok.mp hEmit
      exact stepped_of_string hBind hEmit
    | instr i =>
      have hEmit : (do (← l.bindLabel label).emit site (.instr i)) = .ok l' := by
        cases label <;> exact h
      obtain ⟨bound, hBind, hEmit⟩ := bind_eq_ok.mp hEmit
      exact stepped_of_instr hBind hEmit

/-- The layout is that of the lines `before`. -/
structure Tracks (bases : Bases) (before : List SourceLine) (l : Layout) : Prop where
  segment : l.segment = segmentAfter before
  expand : ∀ line ∈ before, ∀ i, line.statement = some (.instr i) → i.expand = .ok line.concrete
  text : PlacedFrom bases.text (before.flatMap SourceLine.concrete) l.text.toList
  sites : l.text.toList.map Placed.site =
    before.flatMap fun line => line.concrete.map (fun _ => line.site)
  textNext : l.textNext = wordAddress bases.text (wordCount .text before)
  data : l.data.toList = before.flatMap SourceLine.dataWords
  dataNext : l.dataNext = wordAddress bases.data (wordCount .data before)
  symbols : ∀ segment name address, l.symbols.get? segment name = some address ↔
    ∃ above, Declares before segment name above ∧
      address = wordAddress (bases.ofSegment segment) (wordCount segment above)
  unique : ∀ segment name above above', Declares before segment name above →
    Declares before segment name above' → above = above'

theorem Tracks.here {bases : Bases} {before : List SourceLine} (h : l.Tracks bases before) :
    l.here = wordAddress (bases.ofSegment l.segment) (wordCount l.segment before) := by
  unfold Layout.here
  cases l.segment with
  | text => exact h.textNext
  | data => exact h.dataNext

theorem tracks_start (bases : Bases) : Tracks bases [] (start bases) where
  segment := rfl
  expand := nofun
  text := .nil _
  sites := rfl
  textNext := (wordAddress_zero _).symm
  data := rfl
  dataNext := (wordAddress_zero _).symm
  symbols segment name address := by
    constructor
    · intro hSome
      cases segment <;> cases hSome
    · rintro ⟨above, hDeclares, -⟩
      exact absurd hDeclares not_declares_nil
  unique segment name above above' hDeclares := absurd hDeclares not_declares_nil

section Labels

variable {bases : Bases} {before : List SourceLine} {line : SourceLine} {symbols : Symbols}

theorem Tracks.symbols_append (h : l.Tracks bases before) (hSymbols : l.Labelled symbols line.label)
    (segment : Segment) (name : Text) (address : Word) :
    symbols.get? segment name = some address ↔
      ∃ above, Declares (before ++ [line]) segment name above ∧
        address = wordAddress (bases.ofSegment segment) (wordCount segment above) := by
  simp only [declares_append_iff, or_and_right, exists_or, ← h.symbols]
  cases hLabel : line.label with
  | none =>
    rw [hLabel] at hSymbols
    obtain rfl : symbols = l.symbols := hSymbols
    simp
  | some bound =>
    rw [hLabel] at hSymbols
    have hNew := Symbols.get?_eq_none_of_bind hSymbols
    rw [Symbols.get?_bind hSymbols]
    split
    · rename_i hHere
      obtain ⟨rfl, rfl⟩ := hHere
      rw [hNew, h.here, ← h.segment]
      simp [eq_comm]
    · rename_i hOther
      rw [h.segment] at hOther
      constructor
      · exact .inl
      · rintro (hBefore | ⟨above, ⟨rfl, hName, hSegment⟩, -⟩)
        · exact hBefore
        · cases hName
          exact absurd ⟨hSegment.symm, rfl⟩ hOther

theorem Tracks.unique_append (h : l.Tracks bases before) (hSymbols : l.Labelled symbols line.label)
    {segment : Segment} {name : Text} {above above' : List SourceLine}
    (hAbove : Declares (before ++ [line]) segment name above)
    (hAbove' : Declares (before ++ [line]) segment name above') : above = above' := by
  have hNew (hLabel : line.label = some name) (hSegment : segmentAfter before = segment)
      {above : List SourceLine} : ¬Declares before segment name above := by
    intro hDeclares
    rw [hLabel] at hSymbols
    have hNone := Symbols.get?_eq_none_of_bind hSymbols
    have hSome := (h.symbols segment name _).mpr ⟨above, hDeclares, rfl⟩
    rw [h.segment, hSegment, hSome] at hNone
    cases hNone
  rcases declares_append_iff.mp hAbove with hBefore | ⟨rfl, hLabel, hSegment⟩
  · rcases declares_append_iff.mp hAbove' with hBefore' | ⟨rfl, hLabel, hSegment⟩
    · exact h.unique _ _ _ _ hBefore hBefore'
    · exact absurd hBefore (hNew hLabel hSegment)
  · rcases declares_append_iff.mp hAbove' with hBefore' | ⟨rfl, -⟩
    · exact absurd hBefore' (hNew hLabel hSegment)
    · rfl

end Labels

theorem Tracks.step {bases : Bases} {before : List SourceLine} {line : SourceLine}
    (h : l.Tracks bases before) (hStep : l.Stepped line l') : l'.Tracks bases (before ++ [line]) where
  segment := by rw [hStep.segment, segmentAfter_append, h.segment]
  expand other hOther := by
    rcases List.mem_append.mp hOther with hBefore | hLast
    · exact h.expand other hBefore
    · rw [List.mem_singleton.mp hLast]
      exact hStep.expand
  text := by
    obtain ⟨placed, hPlaced, hText⟩ := hStep.text
    rw [h.textNext, ← length_flatMap_concrete] at hPlaced
    rw [hText, List.flatMap_append, List.flatMap_singleton]
    exact h.text.append hPlaced
  sites := by
    rw [hStep.sites, h.sites, List.flatMap_append, List.flatMap_singleton]
  textNext := by
    rw [hStep.textNext, h.textNext, wordAddress_wordAddress, wordCount_append]
    rfl
  data := by
    rw [hStep.data, h.data, List.flatMap_append, List.flatMap_singleton]
  dataNext := by
    rw [hStep.dataNext, h.dataNext, wordAddress_wordAddress, wordCount_append]
    rfl
  symbols := h.symbols_append hStep.symbols
  unique _ _ _ _ hAbove hAbove' := h.unique_append hStep.symbols hAbove hAbove'

/-- Laying out lines places all their words and labels. -/
theorem tracks_of_ofLines {bases : Bases} {lines : List SourceLine} (h : ofLines bases lines = .ok l) :
    l.Tracks bases lines := by
  refine foldlM_invariant (Tracks bases) (tracks_start bases) ?_ h
  intro before line now next hNow hNext
  exact hNow.step (stepped_of_step (locate_eq_ok.mp hNext))

/-- Each line of a layout is a step from the layout of the lines above it. -/
theorem exists_stepped {bases : Bases} {above rest : List SourceLine} {line : SourceLine}
    (h : ofLines bases (above ++ line :: rest) = .ok l) :
    ∃ before after, Tracks bases above before ∧ before.Stepped line after := by
  rw [ofLines, List.foldlM_append] at h
  obtain ⟨before, hAbove, h⟩ := bind_eq_ok.mp h
  rw [List.foldlM_cons] at h
  obtain ⟨after, hLine, -⟩ := bind_eq_ok.mp h
  exact ⟨before, after, tracks_of_ofLines hAbove, stepped_of_step (locate_eq_ok.mp hLine)⟩

end Layout

section Assembled

variable {bases : Bases} {source : Text} {image : Image}

theorem exists_layout (h : assemble bases source = .ok image) :
    ∃ lines layout, SourceLine.readAll source = .ok lines ∧ Layout.ofLines bases lines = .ok layout ∧
      layout.words = .ok image.text ∧ image.data = layout.data.toList ∧
      image.symbols = layout.symbols := by
  obtain ⟨lines, hLines, h⟩ := bind_eq_ok.mp h
  obtain ⟨layout, hLayout, h⟩ := bind_eq_ok.mp h
  obtain ⟨words, hWords, h⟩ := bind_eq_ok.mp h
  obtain rfl := pure_eq_ok.mp h
  exact ⟨lines, layout, hLines, hLayout, hWords, rfl, rfl⟩

theorem assemble_of_layout {lines : List SourceLine} {layout : Layout}
    (hLines : SourceLine.readAll source = .ok lines) (hLayout : Layout.ofLines bases lines = .ok layout) :
    assemble bases source = layout.words.map fun words => ⟨words, layout.data.toList, layout.symbols⟩ := by
  rw [assemble, hLines]
  change (Layout.ofLines bases lines >>= _) = _
  rw [hLayout]
  rfl

theorem Layout.forall₂_words {layout : Layout} {words : List Word} (h : layout.words = .ok words) :
    List.Forall₂ (fun p w => p.instr.word layout.symbols p.address = .ok w) layout.text.toList words :=
  (mapM_eq_ok_iff.mp h).imp (fun _ _ hWord => locate_eq_ok.mp hWord)

theorem exists_tracks (h : assemble bases source = .ok image) :
    ∃ lines, SourceLine.readAll source = .ok lines ∧
      ∃ layout : Layout, layout.Tracks bases lines ∧ image.data = layout.data.toList ∧
        image.symbols = layout.symbols ∧
        List.Forall₂ (fun p w => p.instr.word image.symbols p.address = .ok w) layout.text.toList
          image.text := by
  obtain ⟨lines, layout, hLines, hLayout, hWords, hData, hSymbols⟩ := exists_layout h
  refine ⟨lines, hLines, layout, Layout.tracks_of_ofLines hLayout, hData, hSymbols, ?_⟩
  rw [hSymbols]
  exact Layout.forall₂_words hWords

/-- The words of the text segment are those of the instructions, each at its place. -/
theorem exists_word_at {lines : List SourceLine} {layout : Layout} (hTracks : layout.Tracks bases lines)
    (hWords : List.Forall₂ (fun p w => p.instr.word image.symbols p.address = .ok w) layout.text.toList
      image.text) {k : Nat} {i : InstrText} (hk : (lines.flatMap SourceLine.concrete)[k]? = some i) :
    ∃ s w, SymInstr.read i = .ok s ∧ image.text[k]? = some w ∧
      s.word image.symbols (wordAddress bases.text k) = .ok w := by
  obtain ⟨p, hp, hRead, hAddress⟩ := hTracks.text.exists_getElem? hk
  obtain ⟨w, hw, hWord⟩ := exists_getElem?_of_forall₂ hWords hp
  rw [hAddress] at hWord
  exact ⟨p.instr, w, hRead, hw, hWord⟩

theorem assemble_places_words_and_labels (h : assemble bases source = .ok image) :
    ∃ lines, SourceLine.readAll source = .ok lines ∧
      (∀ line ∈ lines, ∀ i, line.statement = some (.instr i) → i.expand = .ok line.concrete) ∧
      image.text.length = (lines.map (fun line => line.concrete.length)).sum ∧
      (∀ k i, (lines.flatMap SourceLine.concrete)[k]? = some i →
        ∃ s w, SymInstr.read i = .ok s ∧ image.text[k]? = some w ∧
          s.word image.symbols (wordAddress bases.text k) = .ok w) ∧
      image.data = lines.flatMap SourceLine.dataWords ∧
      (∀ segment name address, image.symbols.get? segment name = some address ↔
        ∃ above, Declares lines segment name above ∧
          address = wordAddress (bases.ofSegment segment) (wordCount segment above)) ∧
      ∀ segment name above above', Declares lines segment name above →
        Declares lines segment name above' → above = above' := by
  obtain ⟨lines, hLines, layout, hTracks, hData, hSymbols, hWords⟩ := exists_tracks h
  refine ⟨lines, hLines, hTracks.expand, ?_, ?_, ?_, ?_, hTracks.unique⟩
  · rw [← hWords.length_eq, ← hTracks.text.read.length_eq, List.length_flatMap]
  · intro k i hk
    exact exists_word_at hTracks hWords hk
  · rw [hData, hTracks.data]
  · rw [hSymbols]
    exact hTracks.symbols

theorem assemble_places_words_and_labels_strings :
    ∃ source image, assemble {} source = .ok image ∧
      image.symbols.get? .data "end".toList = some 0x10010008 ∧
      ∃ lines, SourceLine.readAll source = .ok lines ∧
        ∃ above, Declares lines .data "end".toList above ∧
          (0x10010008 : Word) = wordAddress 0x10010000 (wordCount .data above) := by
  have hAssemble : ∃ image, assemble {} (".data\nmsg: .asciiz \"abcd\"\nend:\n.text\n".toList ++
      "main: la $t0, msg\nloop: li $t1, 70000\nj loop".toList) = .ok image ∧
      image.symbols.get? .data "end".toList = some 0x10010008 := ⟨_, rfl, rfl⟩
  obtain ⟨image, hImage, hEnd⟩ := hAssemble
  obtain ⟨lines, hLines, -, -, -, -, hSymbols, -⟩ := assemble_places_words_and_labels hImage
  exact ⟨_, image, hImage, hEnd, lines, hLines, (hSymbols _ _ _).mp hEnd⟩

end Assembled

end MipsAsm
