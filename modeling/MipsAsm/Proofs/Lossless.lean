import Mathlib.Algebra.Ring.Int.Defs
import MipsAsm.Proofs.Resolvability

/-!
Nothing is cut off between an instruction's text and its word. The checks on registers, immediates and
targets leave only values that their fields hold, so the faults of encoding and decoding never reach
whoever assembles a source or a line.
-/

set_option autoImplicit false

namespace MipsAsm

open Outcome

namespace SymInstr

/-- The record has the instruction's mnemonic, registers and numeric operand. -/
def Carries : SymInstr → Instr → Prop
  | syscall, d => d = .syscall 0
  | register m rd rs rt, d =>
    d = .register m rs.number rt.number rd.number 0 m.funct ∧
      rs.number.toNat < 32 ∧ rt.number.toNat < 32 ∧ rd.number.toNat < 32
  | immediate m rt rs imm, d =>
    ∃ half : Half, d = .immediate m rs.number rt.number half ∧
      rs.number.toNat < 32 ∧ rt.number.toNat < 32 ∧
      ∀ v, imm = .value v →
        m ∈ [.addiu, .lw, .sw] ∧ half.toInt = v ∨ m ∈ [.andi, .ori, .lui] ∧ (half.toNat : Int) = v
  | branch m rs rt target, d =>
    ∃ half : Half, d = .immediate m rs.number rt.number half ∧
      rs.number.toNat < 32 ∧ rt.number.toNat < 32 ∧ ∀ v, target = .value v → half.toInt = v
  | jump m target, d =>
    ∃ index : Word, d = .jump m index ∧
      ∀ v, target = .value v → (4 * index.toNat : Int) = v % 2 ^ 28

theorem Reads.signedness_cases {i : InstrText} {m : Mnemonic} {t s : Reg} {imm : Imm}
    (h : Reads i (.immediate m t s imm)) :
    m ∈ [.addiu, .lw, .sw] ∧ m.signedness = .signed ∨
      m ∈ [.andi, .ori, .lui] ∧ m.signedness = .unsigned := by
  have hForm : m.operandForm ∈ [.rtRsImm, .rtImm, .rtOffsetBase] := by
    cases h with
    | immediate hForm => simp [hForm]
    | upper hForm => simp [hForm]
    | memory hForm => simp [hForm]
  revert hForm
  cases m <;> decide

theorem index_of_resolveAddress {symbols : Symbols} {v : Int} {destination : Word}
    (h : resolveAddress symbols (.value v) = .ok destination) (hAligned : destination.toNat % 4 = 0) :
    (4 * (jumpIndex destination).toNat : Int) = v % 2 ^ 28 := by
  rw [resolveAddress] at h
  split at h
  · rename_i hRange
    cases h
    have hValue := Word.toNat_ofInt hRange
    rw [toNat_jumpIndex]
    omega
  · cases h

theorem Reads.carries {i : InstrText} {s : SymInstr} (hReads : Reads i s) {symbols : Symbols}
    {address : Word} {d : Instr} (h : s.resolve symbols address = .ok d) : s.Carries d := by
  have hValid := hReads.valid
  cases s with
  | syscall =>
    cases h
    rfl
  | register m rd rs rt =>
    obtain ⟨-, hRd, hRs, hRt⟩ := hValid
    cases h
    exact ⟨rfl, hRs, hRt, hRd⟩
  | immediate m rt rs imm =>
    obtain ⟨-, hRt, hRs, -⟩ := hValid
    obtain ⟨half, hHalf, hRecord⟩ := bind_eq_ok.mp h
    cases pure_eq_ok.mp hRecord
    refine ⟨half, rfl, hRs, hRt, ?_⟩
    rintro v rfl
    have hValue := Signedness.value_of_checked hHalf
    rcases hReads.signedness_cases with ⟨hMem, hSigned⟩ | ⟨hMem, hUnsigned⟩
    · rw [hSigned] at hValue
      exact .inl ⟨hMem, hValue⟩
    · rw [hUnsigned] at hValue
      exact .inr ⟨hMem, hValue⟩
  | branch m rs rt target =>
    obtain ⟨-, -, hRs, hRt⟩ := hValid
    obtain ⟨half, hHalf, hRecord⟩ := bind_eq_ok.mp h
    cases pure_eq_ok.mp hRecord
    refine ⟨half, rfl, hRs, hRt, ?_⟩
    rintro v rfl
    exact Signedness.value_of_checked hHalf
  | jump m target =>
    obtain ⟨destination, hAddress, hRecord⟩ := bind_eq_ok.mp h
    split at hRecord
    · cases hRecord
    · rename_i hAligned
      cases pure_eq_ok.mp hRecord
      refine ⟨jumpIndex destination, rfl, ?_⟩
      rintro v rfl
      exact index_of_resolveAddress hAddress (not_not.mp hAligned)

end SymInstr

/-- The faults that only encoding a record or decoding a word gives. -/
def Fault.OfCodec : Fault → Prop
  | unknownCodes _ _ => True
  | field _ => True
  | malformed (.unencodable _) => True
  | _ => False

/-- The result is no fault of the codec. -/
def CodecSafe {α : Type} (x : Except Fault α) : Prop := FailsOnly (fun fault => ¬fault.OfCodec) x

-- Reading and laying out name neither `encode` nor `decode`, so each function below gives only faults of
-- its own and of those it calls.
theorem Immediate.codecSafe_read (t : Text) : CodecSafe (Immediate.read t) := by
  unfold Immediate.read
  dsimp only
  split
  · exact .ok _
  · exact .error not_false

theorem MemoryOperand.codecSafe_read (t : Text) : CodecSafe (MemoryOperand.read t) := by
  unfold MemoryOperand.read
  dsimp only
  split
  · exact .error not_false
  · split
    · exact .error not_false
    · exact .ok _

theorem Reg.codecSafe_named (t : Text) : CodecSafe (Reg.named t) := by
  unfold Reg.named
  dsimp only
  split
  · exact .ok _
  · exact .error not_false

theorem Mnemonic.codecSafe_named (t : Text) : CodecSafe (Mnemonic.named t) := by
  unfold Mnemonic.named
  split
  · exact .ok _
  · exact .error not_false

theorem Signedness.codecSafe_check (s : Signedness) (v : Int) : CodecSafe (s.check v) := by
  unfold Signedness.check
  split
  · exact .ok _
  · exact .error not_false

theorem Imm.codecSafe_read (s : Signedness) (t : Text) : CodecSafe (Imm.read s t) := by
  unfold Imm.read
  split
  · exact .ok _
  · exact .ok _
  · refine .bind (Immediate.codecSafe_read t) fun v _ => ?_
    exact .bind (s.codecSafe_check v) fun _ _ => .ok _

theorem Target.codecSafe_read (t : Text) : CodecSafe (Target.read t) := by
  unfold Target.read
  split
  · exact .ok _
  · exact (Immediate.codecSafe_read t).map _

theorem SymInstr.codecSafe_read (i : InstrText) : CodecSafe (SymInstr.read i) := by
  refine .bind (Mnemonic.codecSafe_named _) fun m _ => ?_
  split
  · exact .ok _
  · exact .error not_false
  · refine .bind (Reg.codecSafe_named _) fun _ _ => ?_
    refine .bind (Reg.codecSafe_named _) fun _ _ => ?_
    exact .bind (Reg.codecSafe_named _) fun _ _ => .ok _
  · exact .error not_false
  · refine .bind (Reg.codecSafe_named _) fun _ _ => ?_
    refine .bind (Reg.codecSafe_named _) fun _ _ => ?_
    exact .bind (Imm.codecSafe_read _ _) fun _ _ => .ok _
  · exact .error not_false
  · refine .bind (Reg.codecSafe_named _) fun _ _ => ?_
    exact .bind (Imm.codecSafe_read _ _) fun _ _ => .ok _
  · exact .error not_false
  · refine .bind (MemoryOperand.codecSafe_read _) fun _ _ => ?_
    refine .bind (Reg.codecSafe_named _) fun _ _ => ?_
    refine .bind (Reg.codecSafe_named _) fun _ _ => ?_
    exact .bind (Imm.codecSafe_read _ _) fun _ _ => .ok _
  · exact .error not_false
  · refine .bind (Reg.codecSafe_named _) fun _ _ => ?_
    refine .bind (Reg.codecSafe_named _) fun _ _ => ?_
    exact .bind (Target.codecSafe_read _) fun _ _ => .ok _
  · exact .error not_false
  · exact .bind (Target.codecSafe_read _) fun _ _ => .ok _
  · exact .error not_false

theorem InstrText.codecSafe_read (t : Text) : CodecSafe (InstrText.read t) := by
  unfold InstrText.read
  dsimp only
  split
  · exact .error not_false
  split
  · exact .ok _
  split
  · exact .error not_false
  · exact .ok _

theorem InstrText.codecSafe_loadImmediate (rd imm : Text) : CodecSafe (loadImmediate rd imm) := by
  refine .bind (Immediate.codecSafe_read imm) fun v _ => ?_
  by_cases hWide : v < -0x80000000 ∨ 0x100000000 ≤ v
  · rw [if_pos hWide]
    exact .error not_false
  · rw [if_neg hWide]
    split
    · exact .ok _
    · exact .ok _

theorem InstrText.codecSafe_loadAddress (rd label : Text) : CodecSafe (loadAddress rd label) := by
  unfold loadAddress
  split
  · exact .ok _
  · exact .error not_false

theorem InstrText.codecSafe_expand (i : InstrText) : CodecSafe i.expand := by
  unfold InstrText.expand
  split
  · split
    · exact codecSafe_loadImmediate _ _
    · exact .error not_false
  split
  · split
    · exact codecSafe_loadAddress _ _
    · exact .error not_false
  split
  · split
    · exact .ok _
    · exact .error not_false
  split
  · split
    · exact .ok _
    · exact .error not_false
  · exact .ok _

theorem Literal.codecSafe_unescape (whole t : Text) : CodecSafe (Literal.unescape whole t) := by
  fun_induction Literal.unescape whole t with
  | case1 => exact .ok _
  | case2 => exact .error not_false
  | case3 => exact .error not_false
  | case4 c rest value hEscape ih => exact ih.map _
  | case5 => exact .error not_false
  | case6 c rest _ _ _ ih => exact ih.map _

theorem Literal.codecSafe_read (t : Text) : CodecSafe (Literal.read t) := by
  refine FailsOnly.map ?_ _
  unfold Literal.characters
  split
  · exact codecSafe_unescape _ _
  · exact .error not_false

theorem Statement.codecSafe_read (body : Text) : CodecSafe (Statement.read body) := by
  unfold Statement.read
  dsimp only
  split
  · split
    · exact .ok _
    split
    · exact .ok _
    split
    · exact (Literal.codecSafe_read _).map _
    · exact .error not_false
  · exact (InstrText.codecSafe_read body).map _

theorem SourceLine.codecSafe_splitLabel (t : Text) : CodecSafe (SourceLine.splitLabel t) := by
  unfold SourceLine.splitLabel
  dsimp only
  split
  · split
    · exact .ok _
    · exact .error not_false
  · exact .ok _

theorem SourceLine.codecSafe_read (site : Site) : CodecSafe (SourceLine.read site) := by
  refine .bind (codecSafe_splitLabel site.text) fun halves _ => ?_
  dsimp only
  split
  · exact .ok _
  · exact .bind (Statement.codecSafe_read _) fun _ _ => .ok _

namespace Layout

theorem codecSafe_bindLabel (l : Layout) (label : Option Text) : CodecSafe (l.bindLabel label) := by
  cases label with
  | none => exact .ok l
  | some name =>
    refine .bind ?_ fun _ _ => .ok _
    unfold Symbols.bind
    split
    · exact .error not_false
    · exact .ok _

theorem codecSafe_emit (l : Layout) (site : Site) (statement : Statement) :
    CodecSafe (l.emit site statement) := by
  unfold emit
  split
  · exact .ok _
  · split
    · exact .ok _
    · exact .error not_false
  · split
    · refine .bind (InstrText.codecSafe_expand _) fun concrete _ => ?_
      exact .foldlM (fun _ i => .bind (SymInstr.codecSafe_read i) fun _ _ => .ok _) concrete l
    · exact .error not_false

theorem codecSafe_step (l : Layout) (line : SourceLine) : CodecSafe (l.step line) := by
  unfold step
  split
  · exact .error not_false
  · exact l.codecSafe_bindLabel _
  · exact .bind (l.codecSafe_bindLabel _) fun next _ => next.codecSafe_emit _ _

end Layout

theorem SymInstr.Rejected.not_ofCodec {bound : Segment → Text → Word → Prop} {p : Word} {s : SymInstr}
    {fault : Fault} (h : s.Rejected bound p fault) : ¬fault.OfCodec := by
  cases h with
  | unbound => exact not_false
  | farBranch => exact not_false
  | wideJump => exact not_false
  | misalignedJump => exact not_false

/-- Words are encoded only for what has been read, and then encoding does not fail. -/
theorem SymInstr.Reads.codecSafe_word {i : InstrText} {s : SymInstr} (hReads : Reads i s)
    (symbols : Symbols) (p : Word) : CodecSafe (s.word symbols p) :=
  fun _ hFault => (hReads.rejected_of_word hFault).not_ofCodec

theorem codecSafe_assembleLine (bases : Bases) (line : Text) : CodecSafe (assembleLine bases line) := by
  refine .bind (InstrText.codecSafe_read _) fun i _ => ?_
  refine .bind i.codecSafe_expand fun concrete _ => ?_
  refine .mapM fun placed => ?_
  refine .bind (SymInstr.codecSafe_read placed.1) fun s hRead => ?_
  exact (SymInstr.reads_of_read_eq hRead).codecSafe_word _ _

theorem failsOnly_assemble (bases : Bases) (source : Text) :
    FailsOnly (fun d => ¬d.kind.OfCodec) (assemble bases source) := by
  refine .bind (.mapM fun site => (SourceLine.codecSafe_read site).locate site) fun lines _ => ?_
  refine .bind (.foldlM (fun l line => (l.codecSafe_step line).locate line.site) _ _) fun layout hLayout => ?_
  refine .bind ?_ fun _ _ => .ok _
  intro d hWords
  obtain ⟨_, _, _, _, -, hRejected, rfl, -⟩ :=
    (Layout.tracks_of_ofLines hLayout).words_eq_error hWords
  exact hRejected.not_ofCodec

theorem source_reaches_word_untruncated :
    (∀ i s symbols address d, SymInstr.read i = .ok s → s.resolve symbols address = .ok d →
      (∃ w, d.encode = .ok w ∧ Instr.decode w = .ok d) ∧ s.Carries d) ∧
    (∀ bases source d, assemble bases source = .error d → ¬d.kind.OfCodec) ∧
    ∀ bases line fault, assembleLine bases line = .error fault → ¬fault.OfCodec := by
  refine ⟨?_, failsOnly_assemble, codecSafe_assembleLine⟩
  intro i s symbols address d hRead hResolve
  have hReads := SymInstr.reads_of_read_eq hRead
  exact ⟨(hReads.valid.writable_of_resolve hResolve).exists_word, hReads.carries hResolve⟩

theorem source_reaches_word_untruncated_store :
    (∃ s d w half, SymInstr.read ⟨"sw".toList, ["$31".toList, "-0x8000($sp)".toList]⟩ = .ok s ∧
      s.resolve .empty 0 = .ok d ∧ d.encode = .ok w ∧ Instr.decode w = .ok d ∧
      d = .immediate .sw 29 31 half ∧ half.toInt = -32768) ∧
    (∃ d, assemble {} "sw $31, 0x8000($sp)".toList = .error d ∧ ¬d.kind.OfCodec) ∧
    ∃ fault, assembleLine {} "sw $32, 0($sp)".toList = .error fault ∧ ¬fault.OfCodec := by
  have hSourceFails : ∃ d, assemble {} "sw $31, 0x8000($sp)".toList = .error d := ⟨_, rfl⟩
  have hLineFails : ∃ fault, assembleLine {} "sw $32, 0($sp)".toList = .error fault := ⟨_, rfl⟩
  obtain ⟨hCarried, hSource, hLine⟩ := source_reaches_word_untruncated
  refine ⟨?_, hSourceFails.imp fun d hd => ⟨hd, hSource _ _ d hd⟩,
    hLineFails.imp fun fault hFault => ⟨hFault, hLine _ _ fault hFault⟩⟩
  obtain ⟨⟨w, hEncode, hDecode⟩, half, hRecord, -, -, hValue⟩ :=
    hCarried ⟨"sw".toList, ["$31".toList, "-0x8000($sp)".toList]⟩ _ .empty 0 _ rfl rfl
  refine ⟨_, _, w, half, rfl, rfl, hEncode, hDecode, hRecord, ?_⟩
  rcases hValue (-32768) rfl with ⟨-, hSigned⟩ | ⟨hMem, -⟩
  · exact hSigned
  · exact absurd hMem (by decide)

end MipsAsm
