import MipsAsm.Proofs.ControlTransfer

/-!
Relocation: the same source from other bases. Every label moves by the distance between the bases of its
segment, wherever addresses wrap around. Offsets between two addresses of one segment stay the same
modulo the address space, and a branch offset that fits sixteen bits is settled by that; so only words
that hold an address itself can differ.
-/

set_option autoImplicit false

namespace MipsAsm

open Outcome

/-- The word holds bits of a label's address. -/
def SymInstr.Absolute : SymInstr → Prop
  | .jump _ (.label _) => True
  | .immediate _ _ _ (.high _) => True
  | .immediate _ _ _ (.low _) => True
  | _ => False

theorem wordAddress_relocated (base base' : Word) (n : Nat) :
    wordAddress base' n = wordAddress base n + (base' - base) := by
  unfold wordAddress
  bv_omega

theorem branchOffset_relocated {base base' : Word} {k n : Nat}
    (hFits : Signedness.signed.Fits (branchOffset (wordAddress base k) (wordAddress base n)))
    (hFits' : Signedness.signed.Fits (branchOffset (wordAddress base' k) (wordAddress base' n))) :
    branchOffset (wordAddress base k) (wordAddress base n) =
      branchOffset (wordAddress base' k) (wordAddress base' n) := by
  have hAligned (base : Word) : (wordAddress base n).toNat % 4 = (wordAddress base k).toNat % 4 := by
    rw [toNat_wordAddress, toNat_wordAddress]
    omega
  have hExact := four_mul_branchOffset (hAligned base)
  have hExact' := four_mul_branchOffset (hAligned base')
  rw [toNat_wordAddress, toNat_wordAddress] at hExact hExact'
  obtain ⟨hLow, hHigh⟩ := hFits
  obtain ⟨hLow', hHigh'⟩ := hFits'
  omega

section TwoRuns

variable {bases bases' : Bases} {lines : List SourceLine} {l l' : Layout}
  (h : l.Tracks bases lines) (h' : l'.Tracks bases' lines)

include h h'

/-- A label stands behind the same words of its segment in both layouts. -/
theorem Layout.Tracks.exists_wordAddress {segment : Segment} {name : Text} {address : Word}
    (hGet : l.symbols.get? segment name = some address) :
    ∃ n, address = wordAddress (bases.ofSegment segment) n ∧
      l'.symbols.get? segment name = some (wordAddress (bases'.ofSegment segment) n) := by
  obtain ⟨above, hDeclares, rfl⟩ := (h.symbols _ _ _).mp hGet
  exact ⟨wordCount segment above, rfl, (h'.symbols _ _ _).mpr ⟨above, hDeclares, rfl⟩⟩

theorem Layout.Tracks.get?_relocated (segment : Segment) (name : Text) :
    l'.symbols.get? segment name =
      (l.symbols.get? segment name).map (· + (bases'.ofSegment segment - bases.ofSegment segment)) := by
  cases hGet : l.symbols.get? segment name with
  | some address =>
    obtain ⟨n, rfl, hOther⟩ := h.exists_wordAddress h' hGet
    rw [hOther, wordAddress_relocated (bases.ofSegment segment)]
    rfl
  | none =>
    cases hOther : l'.symbols.get? segment name with
    | none => rfl
    | some address =>
      obtain ⟨n, -, hSome⟩ := h'.exists_wordAddress h hOther
      rw [hGet] at hSome
      cases hSome

theorem SymInstr.resolve_relocated {s : SymInstr} (hRelative : ¬s.Absolute) {k : Nat} {d d' : Instr}
    (hd : s.resolve l.symbols (wordAddress bases.text k) = .ok d)
    (hd' : s.resolve l'.symbols (wordAddress bases'.text k) = .ok d') : d = d' := by
  cases s with
  | syscall => exact Except.ok.inj (hd.symm.trans hd')
  | register m rd rs rt => exact Except.ok.inj (hd.symm.trans hd')
  | immediate m rt rs imm =>
    cases imm with
    | value v => exact Except.ok.inj (hd.symm.trans hd')
    | high label => exact absurd trivial hRelative
    | low label => exact absurd trivial hRelative
  | branch m rs rt target =>
    cases target with
    | value v => exact Except.ok.inj (hd.symm.trans hd')
    | label name =>
      obtain ⟨t, hGet, hFits, rfl⟩ := exists_offset_of_resolve hd
      obtain ⟨t', hGet', hFits', rfl⟩ := exists_offset_of_resolve hd'
      obtain ⟨n, rfl, hSome⟩ := h.exists_wordAddress h' hGet
      obtain rfl := Option.some.inj (hSome.symm.trans hGet')
      rw [Bases.ofSegment] at hFits hFits'
      rw [Bases.ofSegment, branchOffset_relocated hFits hFits']
      rfl
  | jump m target =>
    cases target with
    | value v => exact Except.ok.inj (hd.symm.trans hd')
    | label name => exact absurd trivial hRelative

theorem SymInstr.word_relocated {s : SymInstr} (hRelative : ¬s.Absolute) {k : Nat} {w w' : Word}
    (hw : s.word l.symbols (wordAddress bases.text k) = .ok w)
    (hw' : s.word l'.symbols (wordAddress bases'.text k) = .ok w') : w = w' := by
  obtain ⟨d, hResolve, hEncode⟩ := bind_eq_ok.mp hw
  obtain ⟨d', hResolve', hEncode'⟩ := bind_eq_ok.mp hw'
  obtain rfl := resolve_relocated h h' hRelative hResolve hResolve'
  exact Except.ok.inj (hEncode.symm.trans hEncode')

end TwoRuns

theorem relocation_changes_absolute_only {source : Text} {bases bases' : Bases} {image image' : Image}
    (h : assemble bases source = .ok image) (h' : assemble bases' source = .ok image') :
    image.data = image'.data ∧ image.text.length = image'.text.length ∧
      (∀ segment name, image'.symbols.get? segment name =
        (image.symbols.get? segment name).map (· + (bases'.ofSegment segment - bases.ofSegment segment))) ∧
      ∃ lines, SourceLine.readAll source = .ok lines ∧
        ∀ k < image.text.length, ∃ i s, (lines.flatMap SourceLine.concrete)[k]? = some i ∧
          SymInstr.read i = .ok s ∧ (¬s.Absolute → image.text[k]? = image'.text[k]?) ∧
          ∀ m rs rt target, s = .branch m rs rt target → image.text[k]? = image'.text[k]? := by
  obtain ⟨lines, hLines, layout, hTracks, hData, hSymbols, hWords⟩ := exists_tracks h
  obtain ⟨lines', hLines', layout', hTracks', hData', hSymbols', hWords'⟩ := exists_tracks h'
  obtain rfl : lines = lines' := Except.ok.inj (hLines.symm.trans hLines')
  have hLength : image.text.length = (lines.flatMap SourceLine.concrete).length := by
    rw [← hWords.length_eq, ← hTracks.text.read.length_eq]
  have hLength' : image'.text.length = (lines.flatMap SourceLine.concrete).length := by
    rw [← hWords'.length_eq, ← hTracks'.text.read.length_eq]
  refine ⟨?_, hLength.trans hLength'.symm, ?_, lines, hLines, fun k hk => ?_⟩
  · rw [hData, hData', hTracks.data, hTracks'.data]
  · rw [hSymbols, hSymbols']
    exact hTracks.get?_relocated hTracks'
  · obtain ⟨i, hi⟩ : ∃ i, (lines.flatMap SourceLine.concrete)[k]? = some i :=
      ⟨_, List.getElem?_eq_getElem (hLength ▸ hk)⟩
    obtain ⟨s, w, hRead, hw, hWord⟩ := exists_word_at hTracks hWords hi
    obtain ⟨s', w', hRead', hw', hWord'⟩ := exists_word_at hTracks' hWords' hi
    obtain rfl := Except.ok.inj (hRead.symm.trans hRead')
    rw [hSymbols] at hWord
    rw [hSymbols'] at hWord'
    have hSame (hRelative : ¬s.Absolute) : image.text[k]? = image'.text[k]? := by
      rw [hw, hw', SymInstr.word_relocated hTracks hTracks' hRelative hWord hWord']
    refine ⟨i, s, hi, hRead, hSame, ?_⟩
    rintro m rs rt target rfl
    exact hSame id

theorem relocation_changes_absolute_only_wrapped :
    ∃ source image image', assemble {} source = .ok image ∧
      assemble ⟨0xFFFFFFF4, 0xFFFFFFFD⟩ source = .ok image' ∧ image.text ≠ image'.text ∧
      image'.symbols.get? .text "b".toList = some 4 ∧
      image.symbols.get? .text "b".toList = some 0x00400010 ∧
      image.data = image'.data ∧ image.text.length = image'.text.length ∧
      image'.symbols.get? .text "b".toList =
        (image.symbols.get? .text "b".toList).map (· + (0xFFFFFFF4 - 0x00400000)) := by
  have hAssemble : ∃ image image',
      assemble {} (".data\nm: .asciiz \"abcd\"\n.text\n".toList ++
        "a: la $t0, m\nbeq $t0, $t1, a\nj a\nb: bne $t0, $t1, b".toList) = .ok image ∧
      assemble ⟨0xFFFFFFF4, 0xFFFFFFFD⟩ (".data\nm: .asciiz \"abcd\"\n.text\n".toList ++
        "a: la $t0, m\nbeq $t0, $t1, a\nj a\nb: bne $t0, $t1, b".toList) = .ok image' ∧
      image.text ≠ image'.text ∧ image'.symbols.get? .text "b".toList = some 4 ∧
      image.symbols.get? .text "b".toList = some 0x00400010 :=
    ⟨_, _, rfl, rfl, by decide, rfl, rfl⟩
  obtain ⟨image, image', hImage, hImage', hDiffer, hLabel', hLabel⟩ := hAssemble
  obtain ⟨hData, hLength, hSymbols, -⟩ := relocation_changes_absolute_only hImage hImage'
  exact ⟨_, image, image', hImage, hImage', hDiffer, hLabel', hLabel, hData, hLength, hSymbols _ _⟩

end MipsAsm
