import MipsAsm.Proofs.Resolvability
import MipsAsm.Proofs.Sites

/-!
Where the errors of a source are reported. Every error stands at one site of the source. Reading and
laying out stop at the first line that fails, so nothing behind the site has a part in their errors; an
error of the words comes from the first instruction that does not resolve where it stands, and is reported
at the line of that instruction.
-/

set_option autoImplicit false

namespace MipsAsm

open Outcome Text

theorem SymInstr.Reads.resolve_of_word {i : InstrText} {s : SymInstr} (hReads : Reads i s)
    {symbols : Symbols} {p : Word} {fault : Fault} (h : s.word symbols p = .error fault) :
    s.resolve symbols p = .error fault := by
  rcases bind_eq_error.mp h with hResolve | ⟨d, hResolve, hEncode⟩
  · exact hResolve
  · obtain ⟨w, hWord, -⟩ := (hReads.valid.writable_of_resolve hResolve).exists_word
    rw [hWord] at hEncode
    cases hEncode

theorem SymInstr.exists_resolve_of_word {s : SymInstr} {symbols : Symbols} {p w : Word}
    (h : s.word symbols p = .ok w) : ∃ d, s.resolve symbols p = .ok d := by
  obtain ⟨d, hResolve, -⟩ := bind_eq_ok.mp h
  exact ⟨d, hResolve⟩

section Failing

variable {bases : Bases} {source : Text} {d : Diagnostic} {lines : List SourceLine}

/-- Reading or laying out the source fails with `d`. -/
def FailsEarly (bases : Bases) (source : Text) (d : Diagnostic) : Prop :=
  SourceLine.readAll source = .error d ∨
    ∃ lines, SourceLine.readAll source = .ok lines ∧ Layout.ofLines bases lines = .error d

theorem FailsEarly.assemble_eq (h : FailsEarly bases source d) : assemble bases source = .error d := by
  rcases h with hRead | ⟨lines, hLines, hLayout⟩
  · exact bind_eq_error.mpr (.inl hRead)
  · exact bind_eq_error.mpr (.inr ⟨lines, hLines, bind_eq_error.mpr (.inl hLayout)⟩)

theorem FailsEarly.ofLines_ne_ok (h : FailsEarly bases source d) (hLines : SourceLine.readAll source = .ok lines)
    (layout : Layout) : Layout.ofLines bases lines ≠ .ok layout := by
  intro hLayout
  rcases h with hRead | ⟨lines', hLines', hFails⟩
  · rw [hLines] at hRead
    cases hRead
  · obtain rfl := Except.ok.inj (hLines.symm.trans hLines')
    rw [hLayout] at hFails
    cases hFails

theorem assemble_eq_error (h : assemble bases source = .error d) :
    FailsEarly bases source d ∨
      ∃ lines layout, SourceLine.readAll source = .ok lines ∧ Layout.ofLines bases lines = .ok layout ∧
        layout.words = .error d := by
  rcases bind_eq_error.mp h with hRead | ⟨lines, hLines, h⟩
  · exact .inl (.inl hRead)
  rcases bind_eq_error.mp h with hLayout | ⟨layout, hLayout, h⟩
  · exact .inl (.inr ⟨lines, hLines, hLayout⟩)
  rcases bind_eq_error.mp h with hWords | ⟨words, -, hPure⟩
  · exact .inr ⟨lines, layout, hLines, hLayout, hWords⟩
  · cases hPure

theorem exists_cut_of_readAll (h : SourceLine.readAll source = .error d) :
    ∃ site ∈ SourceLine.sites source, ∃ fault, d = .located site (.fault fault) ∧
      SourceLine.readAll (takeLines site.line source) = .error d := by
  obtain ⟨front, site, back, hSites, hSite, hStop⟩ := exists_stop_of_mapM h
  obtain ⟨fault, -, hLocated⟩ := locate_eq_error.mp hSite
  refine ⟨site, ?_, fault, hLocated, ?_⟩
  · rw [hSites]
    exact List.mem_append_right _ List.mem_cons_self
  · rw [SourceLine.readAll, SourceLine.sites_takeLines hSites]
    exact hStop

theorem exists_cut_of_ofLines (hLines : SourceLine.readAll source = .ok lines)
    (h : Layout.ofLines bases lines = .error d) :
    ∃ line ∈ lines, ∃ fault, d = .located line.site (.fault fault) ∧
      ∃ above, SourceLine.readAll (takeLines line.site.line source) = .ok above ∧
        Layout.ofLines bases above = .error d := by
  obtain ⟨front, line, back, now, rfl, hLine, hStop⟩ := exists_stop_of_foldlM h
  obtain ⟨fault, -, hLocated⟩ := locate_eq_error.mp hLine
  obtain ⟨hSites, hRead⟩ := SourceLine.readAll_eq_ok_iff.mp hLines
  rw [List.map_append, List.map_cons] at hSites
  refine ⟨line, List.mem_append_right _ List.mem_cons_self, fault, hLocated, front ++ [line], ?_, hStop⟩
  refine SourceLine.readAll_eq_ok_iff.mpr ⟨?_, fun other hOther => hRead other ?_⟩
  · rw [SourceLine.sites_takeLines hSites, List.map_append, List.map_singleton]
  · rw [List.append_cons]
    exact List.mem_append_left _ hOther

theorem site_mem_sites (hLines : SourceLine.readAll source = .ok lines) {line : SourceLine}
    (hLine : line ∈ lines) : line.site ∈ SourceLine.sites source := by
  rw [(SourceLine.readAll_eq_ok_iff.mp hLines).1]
  exact List.mem_map_of_mem hLine

theorem Emits.site_mem_sites (hLines : SourceLine.readAll source = .ok lines) {k : Nat} {site : Site}
    {s : SymInstr} (h : Emits lines k site s) : site ∈ SourceLine.sites source := by
  obtain ⟨i, hk, -⟩ := h
  obtain ⟨line, hLine, hMem⟩ := List.mem_flatMap.mp (List.mem_of_getElem? hk)
  obtain ⟨_, -, hPair⟩ := List.mem_map.mp hMem
  cases hPair
  exact MipsAsm.site_mem_sites hLines hLine

/-- The lines behind the site of an early error have no part in it. -/
theorem FailsEarly.exists_cut (h : FailsEarly bases source d) :
    ∃ site ∈ SourceLine.sites source, ∃ fault, d = .located site (.fault fault) ∧
      FailsEarly bases (takeLines site.line source) d := by
  rcases h with hRead | ⟨lines, hLines, hLayout⟩
  · obtain ⟨site, hSite, fault, hLocated, hCut⟩ := exists_cut_of_readAll hRead
    exact ⟨site, hSite, fault, hLocated, .inl hCut⟩
  · obtain ⟨line, hLine, fault, hLocated, hCut⟩ := exists_cut_of_ofLines hLines hLayout
    exact ⟨line.site, site_mem_sites hLines hLine, fault, hLocated, .inr hCut⟩

/-- An error of the words is that of the first instruction that does not resolve at its own address, and is
reported at the line of this instruction. -/
theorem exists_unresolved_of_words {layout : Layout} (hLayout : Layout.ofLines bases lines = .ok layout)
    (h : layout.words = .error d) :
    ∃ k site s fault, d = .located site (.fault fault) ∧ Emits lines k site s ∧
      s.resolve layout.symbols (wordAddress bases.text k) = .error fault ∧
      ∀ j < k, ∀ site' s', Emits lines j site' s' →
        ∃ r, s'.resolve layout.symbols (wordAddress bases.text j) = .ok r := by
  have hTracks := Layout.tracks_of_ofLines hLayout
  obtain ⟨k, p, hk, hError, hBefore⟩ := mapM_eq_error h
  obtain ⟨fault, hWord, hLocated⟩ := locate_eq_error.mp hError
  obtain ⟨hEmits, hAddress⟩ := hTracks.emits_of_getElem? hk
  obtain ⟨i, hReads⟩ := hEmits.exists_reads
  rw [hAddress] at hWord
  refine ⟨k, p.site, p.instr, fault, hLocated, hEmits, hReads.resolve_of_word hWord, ?_⟩
  intro j hj site' s' hEmits'
  obtain ⟨w, hOk⟩ := hBefore j hj _ (hTracks.emits_iff.mp hEmits')
  exact SymInstr.exists_resolve_of_word (locate_eq_ok.mp hOk)

end Failing

/-- An error stands at one line of the source, which is not blank. What lies behind that line has no part in
an error of reading or laying out; an error of the words is that of the first instruction that does not
resolve, and this instruction is one of its line. -/
theorem errors_are_located (bases : Bases) (source : Text) :
    (∀ d, assemble bases source = .error d →
      ∃ site fault, d = .located site (.fault fault) ∧
        (∃ line, (lines source)[site.line - 1]? = some line ∧ 1 ≤ site.line ∧
          site.line ≤ (lines source).length ∧ site.text = content line ∧ site.text ≠ []) ∧
        (FailsEarly bases source d → assemble bases (takeLines site.line source) = .error d) ∧
        ∀ lines layout, SourceLine.readAll source = .ok lines → Layout.ofLines bases lines = .ok layout →
          ∃ k s, Emits lines k site s ∧ s.resolve layout.symbols (wordAddress bases.text k) = .error fault ∧
            ∀ j < k, ∀ site' s', Emits lines j site' s' →
              ∃ r, s'.resolve layout.symbols (wordAddress bases.text j) = .ok r) ∧
    ∀ line d, (assembleLine bases line).mapError Diagnostic.fault = .error d → d.site? = none := by
  constructor
  · intro d h
    rcases assemble_eq_error h with hEarly | ⟨lines, layout, hLines, hLayout, hWords⟩
    · obtain ⟨site, hSite, fault, hLocated, hCut⟩ := hEarly.exists_cut
      refine ⟨site, fault, hLocated, SourceLine.exists_line_of_mem_sites hSite, fun _ => hCut.assemble_eq, ?_⟩
      intro lines layout hLines hLayout
      exact absurd hLayout (hEarly.ofLines_ne_ok hLines layout)
    · obtain ⟨k, site, s, fault, hLocated, hEmits, hUnresolved⟩ := exists_unresolved_of_words hLayout hWords
      have hSite := SourceLine.exists_line_of_mem_sites (hEmits.site_mem_sites hLines)
      refine ⟨site, fault, hLocated, hSite, ?_, ?_⟩
      · intro hEarly
        exact absurd hLayout (hEarly.ofLines_ne_ok hLines layout)
      · intro lines' layout' hLines' hLayout'
        obtain rfl := Except.ok.inj (hLines.symm.trans hLines')
        obtain rfl := Except.ok.inj (hLayout.symm.trans hLayout')
        exact ⟨k, s, hEmits, hUnresolved⟩
  · intro line d h
    cases hLine : assembleLine bases line with
    | ok words =>
      rw [hLine] at h
      cases h
    | error fault =>
      rw [hLine] at h
      cases h
      rfl

/-- In the second source the two branches have the same text, and only the second of them is out of reach. -/
theorem errors_are_located_both_passes :
    (∃ source d site fault, assemble {} source = .error d ∧ d = .located site (.fault fault) ∧
      site.line = 5 ∧ fault = .duplicateLabel "a".toList ∧ assemble {} (takeLines 5 source) = .error d) ∧
    ∃ lines layout d site fault k s,
      SourceLine.readAll "x: syscall\nbeq $t0, $t1, x\nbeq $t0, $t1, x".toList = .ok lines ∧
      Layout.ofLines ⟨0xFFFFFFF8, 0⟩ lines = .ok layout ∧
      assemble ⟨0xFFFFFFF8, 0⟩ "x: syscall\nbeq $t0, $t1, x\nbeq $t0, $t1, x".toList = .error d ∧
      d = .located site (.fault fault) ∧ site.line = 3 ∧ Emits lines k site s ∧
      s.resolve layout.symbols (wordAddress 0xFFFFFFF8 k) = .error fault ∧
      ∃ site' s' r, Emits lines 1 site' s' ∧ site'.line = 2 ∧ site'.text = site.text ∧
        s'.resolve layout.symbols (wordAddress 0xFFFFFFF8 1) = .ok r := by
  constructor
  · have hFails : ∃ d lines,
        assemble {} "\n# #\nblt $t0, $t1, gone\r\na:\na: syscall # \"\nj b".toList = .error d ∧
        SourceLine.readAll "\n# #\nblt $t0, $t1, gone\r\na:\na: syscall # \"\nj b".toList = .ok lines ∧
        Layout.ofLines {} lines = .error d ∧ d.kind = .duplicateLabel "a".toList ∧
        d.site?.map Site.line = some 5 := ⟨_, _, rfl, rfl, rfl, rfl, rfl⟩
    obtain ⟨d, lines, hError, hLines, hLayout, hKind, hLine⟩ := hFails
    obtain ⟨site, fault, rfl, -, hCut, -⟩ := (errors_are_located {} _).1 d hError
    have hNumber : site.line = 5 := Option.some.inj hLine
    rw [hNumber] at hCut
    exact ⟨_, _, site, fault, hError, rfl, hNumber, hKind, hCut (.inr ⟨lines, hLines, hLayout⟩)⟩
  · have hFails : ∃ lines layout d i s r,
        SourceLine.readAll "x: syscall\nbeq $t0, $t1, x\nbeq $t0, $t1, x".toList = .ok lines ∧
        Layout.ofLines ⟨0xFFFFFFF8, 0⟩ lines = .ok layout ∧
        assemble ⟨0xFFFFFFF8, 0⟩ "x: syscall\nbeq $t0, $t1, x\nbeq $t0, $t1, x".toList = .error d ∧
        d.site? = some ⟨3, "beq $t0, $t1, x".toList⟩ ∧
        (emitted lines)[1]? = some (⟨2, "beq $t0, $t1, x".toList⟩, i) ∧ SymInstr.read i = .ok s ∧
        s.resolve layout.symbols (wordAddress 0xFFFFFFF8 1) = .ok r :=
      ⟨_, _, _, _, _, _, rfl, rfl, rfl, rfl, rfl, rfl, rfl⟩
    obtain ⟨lines, layout, d, i, s', r, hLines, hLayout, hError, hSite, hEmitted, hRead, hResolved⟩ := hFails
    obtain ⟨site, fault, rfl, -, -, hLate⟩ := (errors_are_located _ _).1 d hError
    obtain ⟨k, s, hEmits, hResolve, -⟩ := hLate lines layout hLines hLayout
    obtain rfl : site = ⟨3, "beq $t0, $t1, x".toList⟩ := Option.some.inj hSite
    exact ⟨lines, layout, _, _, fault, k, s, hLines, hLayout, hError, rfl, rfl, hEmits, hResolve, _, s', r,
      ⟨i, hEmitted, hRead⟩, rfl, rfl, hResolved⟩

end MipsAsm
