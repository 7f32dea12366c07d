import MipsAsm.Proofs.Parts

/-!
Appending to a source. Lines behind a source leave what it emits where it is, and bind only labels that
it has not bound. So every instruction that resolves with the labels of the source alone resolves to the
same word with those of the whole.
-/

set_option autoImplicit false

namespace MipsAsm

open Outcome

/-- Every label of `b` has the same address in `b'`. -/
def Bindings.Within (b b' : Bindings) : Prop :=
  ∀ name address, b.get? name = some address → b'.get? name = some address

def Symbols.Within (s s' : Symbols) : Prop := ∀ segment, (s.ofSegment segment).Within (s'.ofSegment segment)

theorem Bindings.Within.insert (b : Bindings) {name : Text} (hNew : b.get? name = none) (address : Word) :
    b.Within (b.insert name address) := by
  intro key found hFound
  have hKey : key ≠ name := by
    rintro rfl
    rw [hNew] at hFound
    cases hFound
  rwa [get?_insert, if_neg hKey]

namespace Part

variable {segment : Segment} {p p' : Part segment}

/-- Items and labels are added to, and none is changed. -/
structure Extends (p p' : Part segment) : Prop where
  items : p.items <+: p'.items
  labels : p.labels.Within p'.labels

theorem Extends.refl (p : Part segment) : p.Extends p := ⟨List.prefix_rfl, fun _ _ h => h⟩

theorem Extends.trans {p'' : Part segment} (h : p.Extends p') (h' : p'.Extends p'') : p.Extends p'' :=
  ⟨h.items.trans h'.items, fun _ _ hFound => h'.labels _ _ (h.labels _ _ hFound)⟩

theorem extends_of_add {e : Entry} (h : p.add e = .ok p') : p.Extends p' := by
  obtain ⟨bound, items, hBound, -, rfl⟩ := add_eq_ok.mp h
  cases hLabel : e.label with
  | none =>
    rw [hLabel] at hBound
    cases hBound
    exact ⟨List.prefix_append _ _, fun _ _ hFound => hFound⟩
  | some name =>
    rw [hLabel, bindLabel] at hBound
    split at hBound
    · cases hBound
    · rename_i hNew
      cases hBound
      exact ⟨List.prefix_append _ _, .insert _ (Option.not_isSome_iff_eq_none.mp hNew) _⟩

theorem extends_of_run {entries : List Entry} (h : p.run entries = .ok p') : p.Extends p' :=
  foldlM_invariant (fun _ now => p.Extends now) (.refl p)
    (fun _ _ _ _ hNow hAdd => hNow.trans (extends_of_add hAdd)) h

end Part

theorem entriesFrom_prefix (segment : Segment) (front back : List Entry) (current : Segment) :
    entriesFrom segment current front <+: entriesFrom segment current (front ++ back) := by
  induction front generalizing current with
  | nil => exact List.nil_prefix
  | cons e rest ih =>
    cases hEnters : e.enters? with
    | some next =>
      rw [List.cons_append, entriesFrom_of_enters hEnters, entriesFrom_of_enters hEnters]
      exact ih next
    | none =>
      rw [List.cons_append, entriesFrom_of_lies hEnters, entriesFrom_of_lies hEnters]
      split
      · exact List.cons_prefix_cons.mpr ⟨rfl, ih current⟩
      · exact ih current

namespace SymInstr

variable {symbols symbols' : Symbols} (hWithin : symbols.Within symbols')

include hWithin

theorem lookup_of_within {segment : Segment} {name : Text} {address : Word}
    (h : symbols.lookup segment name = .ok address) : symbols'.lookup segment name = .ok address := by
  rw [Symbols.lookup_eq_ok_iff] at h ⊢
  exact hWithin segment name address h

theorem resolveImm_of_within {s : Signedness} {imm : Imm} {half : Half}
    (h : resolveImm symbols s imm = .ok half) : resolveImm symbols' s imm = .ok half := by
  cases imm with
  | value v => exact h
  | high label =>
    obtain ⟨address, hLookup, hHalf⟩ := bind_eq_ok.mp h
    exact bind_eq_ok.mpr ⟨address, lookup_of_within hWithin hLookup, hHalf⟩
  | low label =>
    obtain ⟨address, hLookup, hHalf⟩ := bind_eq_ok.mp h
    exact bind_eq_ok.mpr ⟨address, lookup_of_within hWithin hLookup, hHalf⟩

theorem resolveOffset_of_within {p : Word} {target : Target} {half : Half}
    (h : resolveOffset symbols p target = .ok half) : resolveOffset symbols' p target = .ok half := by
  cases target with
  | value v => exact h
  | label name =>
    obtain ⟨address, hLookup, hHalf⟩ := bind_eq_ok.mp h
    exact bind_eq_ok.mpr ⟨address, lookup_of_within hWithin hLookup, hHalf⟩

theorem resolveAddress_of_within {target : Target} {address : Word}
    (h : resolveAddress symbols target = .ok address) : resolveAddress symbols' target = .ok address := by
  cases target with
  | value v => exact h
  | label name => exact lookup_of_within hWithin h

theorem resolve_of_within {s : SymInstr} {p : Word} {d : Instr} (h : s.resolve symbols p = .ok d) :
    s.resolve symbols' p = .ok d := by
  cases s with
  | syscall => exact h
  | register m rd rs rt => exact h
  | immediate m rt rs imm =>
    obtain ⟨half, hImm, hRecord⟩ := bind_eq_ok.mp h
    exact bind_eq_ok.mpr ⟨half, resolveImm_of_within hWithin hImm, hRecord⟩
  | branch m rs rt target =>
    obtain ⟨half, hOffset, hRecord⟩ := bind_eq_ok.mp h
    exact bind_eq_ok.mpr ⟨half, resolveOffset_of_within hWithin hOffset, hRecord⟩
  | jump m target =>
    obtain ⟨address, hAddress, hRecord⟩ := bind_eq_ok.mp h
    exact bind_eq_ok.mpr ⟨address, resolveAddress_of_within hWithin hAddress, hRecord⟩

theorem word_of_within {s : SymInstr} {p w : Word} (h : s.word symbols p = .ok w) :
    s.word symbols' p = .ok w := by
  obtain ⟨d, hResolve, hEncode⟩ := bind_eq_ok.mp h
  exact bind_eq_ok.mpr ⟨d, resolve_of_within hWithin hResolve, hEncode⟩

end SymInstr

/-- The words of the first instructions are the first words. -/
theorem Encodes.prefix_of_within {symbols symbols' : Symbols} {base : Word} {instrs instrs' : List SymInstr}
    {words words' : List Word} (h : Encodes symbols base instrs words)
    (h' : Encodes symbols' base instrs' words') (hWithin : symbols.Within symbols')
    (hPrefix : instrs <+: instrs') : words <+: words' := by
  obtain ⟨more, rfl⟩ := hPrefix
  have hTake : (instrs ++ more).zipIdx.take instrs.length = instrs.zipIdx := by
    rw [List.zipIdx_append, List.take_left' List.length_zipIdx]
  have hFirst := List.forall₂_take instrs.length h'
  rw [hTake, ← mapM_eq_ok_iff] at hFirst
  have hSame := mapM_eq_ok_iff.mpr (h.imp (fun _ _ hWord => SymInstr.word_of_within hWithin hWord))
  rw [hSame] at hFirst
  rw [Except.ok.inj hFirst]
  exact List.take_prefix _ _

theorem appending_keeps_assembled {bases : Bases} {front back : Text} {image whole : Image}
    (hFront : assemble bases front = .ok image)
    (hWhole : assemble bases (front ++ '\n' :: back) = .ok whole) :
    image.text <+: whole.text ∧ image.data <+: whole.data ∧
      ∀ segment name address, image.symbols.get? segment name = some address →
        whole.symbols.get? segment name = some address := by
  obtain ⟨entries, parts, hRead, hAssembled⟩ := exists_assembled hFront
  obtain ⟨all, parts', hReadAll, hAssembled'⟩ := exists_assembled hWhole
  obtain ⟨more, rfl⟩ : ∃ more, all = entries ++ more := by
    rw [Text.contents_append, List.mapM_append] at hReadAll
    obtain ⟨entries', hEntries', hReadAll⟩ := bind_eq_ok.mp hReadAll
    obtain ⟨more, -, hAll⟩ := bind_eq_ok.mp hReadAll
    rw [hRead] at hEntries'
    obtain rfl := Except.ok.inj hEntries'
    exact ⟨more, (pure_eq_ok.mp hAll).symm⟩
  have hExtends (segment : Segment) : (parts segment).Extends (parts' segment) := by
    obtain ⟨rest, hRest⟩ := entriesFrom_prefix segment entries more .text
    have hRun := hAssembled'.run segment
    rw [entriesIn, ← hRest, Part.run_append_eq_ok] at hRun
    obtain ⟨part, hPart, hRun⟩ := hRun
    obtain rfl := Except.ok.inj ((hAssembled.run segment).symm.trans hPart)
    exact Part.extends_of_run hRun
  have hWithin : image.symbols.Within whole.symbols := by
    intro segment
    rw [hAssembled.symbols, hAssembled'.symbols]
    exact (hExtends segment).labels
  refine ⟨hAssembled.text.prefix_of_within hAssembled'.text hWithin (hExtends .text).items, ?_, ?_⟩
  · rw [hAssembled.data, hAssembled'.data]
    exact (hExtends .data).items
  · exact hWithin

theorem appending_keeps_assembled_strings :
    ∃ front back image whole, assemble {} front = .ok image ∧
      assemble {} (front ++ '\n' :: back) = .ok whole ∧ image.text.length = 3 ∧ whole.text.length = 5 ∧
      image.text <+: whole.text ∧ image.data <+: whole.data ∧
      whole.symbols.get? .data "m".toList = some 0x10010000 := by
  have hAssemble : ∃ image whole,
      assemble {} "a: la $t0, m\nj a\n.data\nm: .asciiz \"a#\" # end\r".toList = .ok image ∧
      assemble {} ("a: la $t0, m\nj a\n.data\nm: .asciiz \"a#\" # end\r".toList ++
        '\n' :: "n: .asciiz \"c\"\n.text\nb: la $t1, n".toList) = .ok whole ∧
      image.text.length = 3 ∧ whole.text.length = 5 ∧
      image.symbols.get? .data "m".toList = some 0x10010000 := ⟨_, _, rfl, rfl, rfl, rfl, rfl⟩
  obtain ⟨image, whole, hFront, hWhole, hLength, hLength', hLabel⟩ := hAssemble
  obtain ⟨hText, hData, hSymbols⟩ := appending_keeps_assembled hFront hWhole
  exact ⟨_, _, image, whole, hFront, hWhole, hLength, hLength', hText, hData, hSymbols _ _ _ hLabel⟩

end MipsAsm
