import MipsAsm.Proofs.Placement
import MipsAsm.Proofs.Resolution

/-!
Which programs resolve. A program that has been laid out assembles exactly if each of its instructions
finds its label and keeps its branch offset or jump target within bounds. Otherwise the first instruction
that does not says what is wrong, at the line that it comes from.
-/

set_option autoImplicit false

namespace MipsAsm

open Outcome

/-- The integer that a target stands for, where a label stands for a function of its address. -/
inductive Target.Denotes (bound : Segment → Text → Word → Prop) (ofAddress : Word → Int) :
    Target → Int → Prop
  | label {name : Text} {address : Word} (h : bound .text name address) :
      Denotes bound ofAddress (.label name) (ofAddress address)
  | value (v : Int) : Denotes bound ofAddress (.value v) v

def Target.label? : Target → Option Text
  | label name => some name
  | value _ => none

def Imm.label? : Imm → Option Text
  | high name => some name
  | low name => some name
  | value _ => none

namespace SymInstr

/-- The label in an instruction, and the segment in which it is looked up. -/
def label? : SymInstr → Option (Segment × Text)
  | immediate _ _ _ imm => imm.label?.map (.data, ·)
  | branch _ _ _ target => target.label?.map (.text, ·)
  | jump _ target => target.label?.map (.text, ·)
  | _ => none

/-- What the instruction at address `p` asks of its label, its branch offset and its jump target. -/
structure Resolvable (bound : Segment → Text → Word → Prop) (p : Word) (s : SymInstr) : Prop where
  label : ∀ segment name, s.label? = some (segment, name) → ∃ address, bound segment name address
  branch : ∀ m rs rt target offset, s = .branch m rs rt target →
    target.Denotes bound (branchOffset p) offset → -32768 ≤ offset ∧ offset ≤ 32767
  jump : ∀ m target v, s = .jump m target → target.Denotes bound (fun address => address.toNat) v →
    0 ≤ v ∧ v ≤ 4294967295 ∧ v % 4 = 0

/-- What is wrong with an instruction at address `p` that is not resolvable. -/
inductive Rejected (bound : Segment → Text → Word → Prop) (p : Word) : SymInstr → Fault → Prop
  | unbound {s : SymInstr} {segment : Segment} {name : Text} (hLabel : s.label? = some (segment, name))
      (hNone : ∀ address, ¬bound segment name address) : Rejected bound p s (.undefinedLabel name)
  | farBranch {m : Mnemonic} {rs rt : Reg} {target : Target} {offset : Int}
      (hOffset : target.Denotes bound (branchOffset p) offset) (hFar : offset < -32768 ∨ 32767 < offset) :
      Rejected bound p (.branch m rs rt target) (.immediateOutOfRange offset 16)
  | wideJump {m : Mnemonic} {target : Target} {v : Int}
      (hTarget : target.Denotes bound (fun address => address.toNat) v) (hWide : v < 0 ∨ 4294967295 < v) :
      Rejected bound p (.jump m target) (.immediateOutOfRange v 32)
  | misalignedJump {m : Mnemonic} {target : Target} {destination : Word}
      (hTarget : target.Denotes bound (fun address => address.toNat) destination.toNat)
      (hOdd : destination.toNat % 4 ≠ 0) :
      Rejected bound p (.jump m target) (.malformed (.misalignedJump destination))

theorem Rejected.not_resolvable {bound : Segment → Text → Word → Prop} {p : Word} {s : SymInstr}
    {fault : Fault} (h : s.Rejected bound p fault) : ¬s.Resolvable bound p := by
  intro hResolvable
  cases h with
  | unbound hLabel hNone =>
    obtain ⟨address, hBound⟩ := hResolvable.label _ _ hLabel
    exact hNone address hBound
  | farBranch hOffset hFar =>
    have hRange := hResolvable.branch _ _ _ _ _ rfl hOffset
    omega
  | wideJump hTarget hWide =>
    have hRange := hResolvable.jump _ _ _ rfl hTarget
    omega
  | misalignedJump hTarget hOdd =>
    have hRange := hResolvable.jump _ _ _ rfl hTarget
    omega

end SymInstr

def Symbols.Binds (symbols : Symbols) (segment : Segment) (name : Text) (address : Word) : Prop :=
  symbols.get? segment name = some address

theorem Symbols.lookup_cases (symbols : Symbols) (segment : Segment) (name : Text) :
    (∃ address, symbols.Binds segment name address ∧ symbols.lookup segment name = .ok address) ∨
      (∀ address, ¬symbols.Binds segment name address) ∧
        symbols.lookup segment name = .error (.undefinedLabel name) := by
  unfold Binds lookup
  cases symbols.get? segment name with
  | none => exact .inr ⟨nofun, rfl⟩
  | some address => exact .inl ⟨address, rfl, rfl⟩

theorem Target.Denotes.unique {symbols : Symbols} {ofAddress : Word → Int} {target : Target} {v v' : Int}
    (h : target.Denotes symbols.Binds ofAddress v) (h' : target.Denotes symbols.Binds ofAddress v') :
    v = v' := by
  cases h with
  | label hBound =>
    cases h' with
    | label hBound' => rw [Option.some.inj (hBound.symm.trans hBound')]
  | value v =>
    cases h'
    rfl

theorem Target.Denotes.exists_bound {bound : Segment → Text → Word → Prop} {ofAddress : Word → Int}
    {target : Target} {v : Int} (h : target.Denotes bound ofAddress v) {name : Text}
    (hLabel : target.label? = some name) : ∃ address, bound .text name address := by
  cases h with
  | label hBound =>
    cases hLabel
    exact ⟨_, hBound⟩
  | value v => cases hLabel

theorem Signedness.check_signed (v : Int) :
    (-32768 ≤ v ∧ v ≤ 32767) ∧ signed.check v = .ok () ∨
      (v < -32768 ∨ 32767 < v) ∧ signed.check v = .error (.immediateOutOfRange v 16) := by
  unfold check
  split
  · rename_i hFits
    obtain ⟨hLow, hHigh⟩ := hFits
    exact .inl ⟨by omega, rfl⟩
  · rename_i hFits
    have hFar : ¬(-0x8000 ≤ v ∧ v < 0x8000) := hFits
    exact .inr ⟨by omega, rfl⟩

namespace SymInstr

variable (symbols : Symbols) (p : Word)

theorem resolveOffset_cases (target : Target) :
    (∃ offset half, target.Denotes symbols.Binds (branchOffset p) offset ∧
      (-32768 ≤ offset ∧ offset ≤ 32767) ∧ resolveOffset symbols p target = .ok half) ∨
    (∃ name, target.label? = some name ∧ (∀ address, ¬symbols.Binds .text name address) ∧
      resolveOffset symbols p target = .error (.undefinedLabel name)) ∨
    ∃ offset, target.Denotes symbols.Binds (branchOffset p) offset ∧ (offset < -32768 ∨ 32767 < offset) ∧
      resolveOffset symbols p target = .error (.immediateOutOfRange offset 16) := by
  cases target with
  | label name =>
    rcases symbols.lookup_cases .text name with ⟨address, hBound, hLookup⟩ | ⟨hNone, hLookup⟩
    · rcases Signedness.check_signed (branchOffset p address) with ⟨hRange, hCheck⟩ | ⟨hFar, hCheck⟩
      · refine .inl ⟨_, Half.ofInt (branchOffset p address), .label hBound, hRange, ?_⟩
        simp [resolveOffset, hLookup, hCheck]
      · refine .inr (.inr ⟨_, .label hBound, hFar, ?_⟩)
        simp [resolveOffset, bind_eq_error, hLookup, hCheck]
    · refine .inr (.inl ⟨name, rfl, hNone, ?_⟩)
      simp [resolveOffset, bind_eq_error, hLookup]
  | value v =>
    rcases Signedness.check_signed v with ⟨hRange, hCheck⟩ | ⟨hFar, hCheck⟩
    · refine .inl ⟨v, Half.ofInt v, .value v, hRange, ?_⟩
      simp [resolveOffset, hCheck]
    · refine .inr (.inr ⟨v, .value v, hFar, ?_⟩)
      simp [resolveOffset, hCheck]

theorem resolveAddress_cases (target : Target) :
    (∃ destination : Word, target.Denotes symbols.Binds (fun address => address.toNat) destination.toNat ∧
      resolveAddress symbols target = .ok destination) ∨
    (∃ name, target.label? = some name ∧ (∀ address, ¬symbols.Binds .text name address) ∧
      resolveAddress symbols target = .error (.undefinedLabel name)) ∨
    ∃ v, target.Denotes symbols.Binds (fun address => address.toNat) v ∧ (v < 0 ∨ 4294967295 < v) ∧
      resolveAddress symbols target = .error (.immediateOutOfRange v 32) := by
  cases target with
  | label name =>
    rcases symbols.lookup_cases .text name with ⟨address, hBound, hLookup⟩ | ⟨hNone, hLookup⟩
    · exact .inl ⟨address, .label hBound, hLookup⟩
    · exact .inr (.inl ⟨name, rfl, hNone, hLookup⟩)
  | value v =>
    by_cases hRange : 0 ≤ v ∧ v < 0x100000000
    · refine .inl ⟨BitVec.ofInt 32 v, ?_, if_pos hRange⟩
      rw [Word.toNat_ofInt hRange]
      exact .value v
    · exact .inr (.inr ⟨v, .value v, by omega, if_neg hRange⟩)

theorem resolveImm_of_label {imm : Imm} {name : Text} (h : imm.label? = some name) :
    ∃ half : Word → Half, ∀ s, resolveImm symbols s imm = (symbols.lookup .data name).map half := by
  cases imm with
  | value v => cases h
  | high label =>
    cases h
    exact ⟨fun address => (address >>> 16).setWidth 16, fun _ => rfl⟩
  | low label =>
    cases h
    exact ⟨fun address => address.setWidth 16, fun _ => rfl⟩

theorem resolveImm_cases {s : Signedness} {imm : Imm} (hFits : ∀ v, imm = .value v → s.Fits v) :
    (∃ half, (∀ name, imm.label? = some name → ∃ address, symbols.Binds .data name address) ∧
      resolveImm symbols s imm = .ok half) ∨
    ∃ name, imm.label? = some name ∧ (∀ address, ¬symbols.Binds .data name address) ∧
      resolveImm symbols s imm = .error (.undefinedLabel name) := by
  cases hLabel : imm.label? with
  | none =>
    cases imm with
    | value v =>
      have hCheck : s.check v = .ok () := Signedness.check_eq_ok.mpr (hFits v rfl)
      exact .inl ⟨Half.ofInt v, nofun, by simp [resolveImm, hCheck]⟩
    | high name => cases hLabel
    | low name => cases hLabel
  | some name =>
    obtain ⟨half, hHalf⟩ := resolveImm_of_label symbols hLabel
    rcases symbols.lookup_cases .data name with ⟨address, hBound, hLookup⟩ | ⟨hNone, hLookup⟩
    · refine .inl ⟨half address, ?_, by rw [hHalf, hLookup]; rfl⟩
      rintro _ ⟨⟩
      exact ⟨address, hBound⟩
    · exact .inr ⟨name, rfl, hNone, by rw [hHalf, hLookup]; rfl⟩

/-- The instruction either resolves, and has all it asks for, or is rejected for the fault that resolving
it gives. -/
def Settled (s : SymInstr) : Prop :=
  (s.Resolvable symbols.Binds p ∧ ∃ d, s.resolve symbols p = .ok d) ∨
    ∃ fault, s.Rejected symbols.Binds p fault ∧ s.resolve symbols p = .error fault

theorem settled_immediate {m : Mnemonic} {imm : Imm} (hFits : ∀ v, imm = .value v → m.signedness.Fits v)
    (rt rs : Reg) : Settled symbols p (.immediate m rt rs imm) := by
  rcases resolveImm_cases symbols hFits with ⟨half, hBound, hImm⟩ | ⟨name, hName, hNone, hImm⟩
  · refine .inl ⟨⟨?_, nofun, nofun⟩, .immediate m rs.number rt.number half, ?_⟩
    · intro segment name hLabel
      obtain ⟨_, hName, ⟨⟩⟩ := Option.map_eq_some_iff.mp hLabel
      exact hBound name hName
    · simp [resolve, hImm]
  · exact .inr ⟨_, .unbound (by rw [label?, hName]; rfl) hNone, bind_eq_error.mpr (.inl hImm)⟩

theorem settled_branch (m : Mnemonic) (rs rt : Reg) (target : Target) :
    Settled symbols p (.branch m rs rt target) := by
  rcases resolveOffset_cases symbols p target with
    ⟨offset, half, hOffset, hRange, hHalf⟩ | ⟨name, hName, hNone, hFault⟩ | ⟨offset, hOffset, hFar, hFault⟩
  · refine .inl ⟨⟨?_, ?_, nofun⟩, .immediate m rs.number rt.number half, ?_⟩
    · intro segment name hLabel
      obtain ⟨_, hName, ⟨⟩⟩ := Option.map_eq_some_iff.mp hLabel
      exact hOffset.exists_bound hName
    · rintro _ _ _ _ other ⟨⟩ hOther
      rw [hOther.unique hOffset]
      exact hRange
    · simp [resolve, hHalf]
  · exact .inr ⟨_, .unbound (by rw [label?, hName]; rfl) hNone, bind_eq_error.mpr (.inl hFault)⟩
  · exact .inr ⟨_, .farBranch hOffset hFar, bind_eq_error.mpr (.inl hFault)⟩

theorem settled_jump (m : Mnemonic) (target : Target) : Settled symbols p (.jump m target) := by
  rcases resolveAddress_cases symbols target with
    ⟨destination, hTarget, hAddress⟩ | ⟨name, hName, hNone, hFault⟩ | ⟨v, hTarget, hWide, hFault⟩
  · by_cases hAligned : destination.toNat % 4 = 0
    · refine .inl ⟨⟨?_, nofun, ?_⟩, .jump m (jumpIndex destination), ?_⟩
      · intro segment name hLabel
        obtain ⟨_, hName, ⟨⟩⟩ := Option.map_eq_some_iff.mp hLabel
        exact hTarget.exists_bound hName
      · rintro _ _ other ⟨⟩ hOther
        have hWord := destination.isLt
        rw [hOther.unique hTarget]
        omega
      · simp [resolve, hAddress, hAligned]
    · refine .inr ⟨_, .misalignedJump hTarget hAligned, ?_⟩
      refine bind_eq_error.mpr (.inr ⟨destination, hAddress, ?_⟩)
      rw [if_pos hAligned]
      rfl
  · exact .inr ⟨_, .unbound (by rw [label?, hName]; rfl) hNone, bind_eq_error.mpr (.inl hFault)⟩
  · exact .inr ⟨_, .wideJump hTarget hWide, bind_eq_error.mpr (.inl hFault)⟩

-- Only a numeric immediate needs the check made when it was read: its range is no condition of resolving.
theorem Reads.settled {i : InstrText} {s : SymInstr} (hReads : Reads i s) : s.Settled symbols p := by
  cases s with
  | syscall => exact .inl ⟨⟨nofun, nofun, nofun⟩, _, rfl⟩
  | register m rd rs rt => exact .inl ⟨⟨nofun, nofun, nofun⟩, _, rfl⟩
  | immediate m rt rs imm =>
    apply settled_immediate
    rintro v rfl
    exact hReads.fits
  | branch m rs rt target => exact settled_branch symbols p m rs rt target
  | jump m target => exact settled_jump symbols p m target

theorem Reads.word_cases {i : InstrText} {s : SymInstr} (hReads : Reads i s) :
    (s.Resolvable symbols.Binds p ∧ ∃ w, s.word symbols p = .ok w) ∨
      ∃ fault, s.Rejected symbols.Binds p fault ∧ s.word symbols p = .error fault := by
  rcases hReads.settled symbols p with
    ⟨hResolvable, d, hResolve⟩ | ⟨fault, hRejected, hResolve⟩
  · obtain ⟨w, hEncode, -⟩ := (hReads.valid.writable_of_resolve hResolve).exists_word
    exact .inl ⟨hResolvable, w, bind_eq_ok.mpr ⟨d, hResolve, hEncode⟩⟩
  · exact .inr ⟨fault, hRejected, bind_eq_error.mpr (.inl hResolve)⟩

variable {symbols p}

theorem Reads.exists_word_iff {i : InstrText} {s : SymInstr} (hReads : Reads i s) :
    (∃ w, s.word symbols p = .ok w) ↔ s.Resolvable symbols.Binds p := by
  rcases hReads.word_cases symbols p with
    ⟨hResolvable, hWord⟩ | ⟨fault, hRejected, hWord⟩
  · exact iff_of_true hWord hResolvable
  · refine iff_of_false ?_ hRejected.not_resolvable
    rintro ⟨w, hOk⟩
    rw [hWord] at hOk
    cases hOk

theorem Reads.rejected_of_word {i : InstrText} {s : SymInstr} (hReads : Reads i s) {fault : Fault}
    (h : s.word symbols p = .error fault) : s.Rejected symbols.Binds p fault := by
  rcases hReads.word_cases symbols p with ⟨-, w, hWord⟩ | ⟨other, hRejected, hWord⟩
  · rw [hWord] at h
    cases h
  · rw [hWord] at h
    cases h
    exact hRejected

end SymInstr

/-- The machine instructions of the lines in the order of their words, each with its line. -/
def emitted (lines : List SourceLine) : List (Site × InstrText) :=
  lines.flatMap fun line => line.concrete.map fun i => (line.site, i)

theorem map_fst_emitted (lines : List SourceLine) :
    (emitted lines).map Prod.fst = lines.flatMap fun line => line.concrete.map (fun _ => line.site) := by
  simp [emitted, List.map_flatMap, Function.comp_def]

theorem map_snd_emitted (lines : List SourceLine) :
    (emitted lines).map Prod.snd = lines.flatMap SourceLine.concrete := by
  simp [emitted, List.map_flatMap, Function.comp_def]

/-- The `k`-th machine instruction of the lines is read as `s`, and comes from the line at `site`. -/
def Emits (lines : List SourceLine) (k : Nat) (site : Site) (s : SymInstr) : Prop :=
  ∃ i, (emitted lines)[k]? = some (site, i) ∧ SymInstr.read i = .ok s

theorem Emits.exists_reads {lines : List SourceLine} {k : Nat} {site : Site} {s : SymInstr}
    (h : Emits lines k site s) : ∃ i, SymInstr.Reads i s := by
  obtain ⟨i, -, hRead⟩ := h
  exact ⟨i, SymInstr.reads_of_read_eq hRead⟩

/-- A line of the segment declares the label, and the words above the line give its address. -/
def Bound (bases : Bases) (lines : List SourceLine) (segment : Segment) (name : Text) (address : Word) : Prop :=
  ∃ above, Declares lines segment name above ∧
    address = wordAddress (bases.ofSegment segment) (wordCount segment above)

namespace Layout

variable {bases : Bases} {lines : List SourceLine} {layout : Layout}

theorem Tracks.binds_eq (h : layout.Tracks bases lines) : layout.symbols.Binds = Bound bases lines := by
  funext segment name address
  exact propext (h.symbols segment name address)

theorem Tracks.emits_iff (h : layout.Tracks bases lines) {k : Nat} {site : Site} {s : SymInstr} :
    Emits lines k site s ↔ layout.text.toList[k]? = some ⟨wordAddress bases.text k, site, s⟩ := by
  have hSites := congrArg (fun sites => sites[k]?) (h.sites.trans (map_fst_emitted lines).symm)
  have hConcrete := congrArg (fun instrs => instrs[k]?) (map_snd_emitted lines)
  simp only [List.getElem?_map] at hSites hConcrete
  constructor
  · rintro ⟨i, hk, hRead⟩
    rw [hk] at hSites hConcrete
    obtain ⟨p, hp, hReadP, hAddress⟩ := h.text.exists_getElem? hConcrete.symm
    rw [hp] at hSites
    have hSite : p.site = site := Option.some.inj hSites
    have hInstr : p.instr = s := Except.ok.inj (hReadP.symm.trans hRead)
    rw [hp, ← hAddress, ← hSite, ← hInstr]
  · intro hk
    obtain ⟨i, hi, hRead⟩ := exists_getElem?_of_forall₂ h.text.read.flip hk
    rw [hi] at hConcrete
    obtain ⟨entry, hEntry, hSnd⟩ := Option.map_eq_some_iff.mp hConcrete
    rw [hk, hEntry] at hSites
    have hFst : site = entry.1 := Option.some.inj hSites
    refine ⟨i, ?_, hRead⟩
    rw [hEntry, hFst, ← hSnd]

theorem Tracks.emits_of_getElem? (h : layout.Tracks bases lines) {k : Nat} {p : Placed}
    (hk : layout.text.toList[k]? = some p) :
    Emits lines k p.site p.instr ∧ p.address = wordAddress bases.text k := by
  have hAddress := h.text.address_eq hk
  refine ⟨h.emits_iff.mpr ?_, hAddress⟩
  rw [hk, ← hAddress]

theorem Tracks.exists_words_iff (h : layout.Tracks bases lines) :
    (∃ words, layout.words = .ok words) ↔
      ∀ k site s, Emits lines k site s → s.Resolvable (Bound bases lines) (wordAddress bases.text k) := by
  rw [← h.binds_eq, words, exists_mapM_iff]
  simp only [locate_eq_ok]
  constructor
  · intro hAll k site s hEmits
    have hWord := hAll _ (List.mem_of_getElem? (h.emits_iff.mp hEmits))
    obtain ⟨i, hReads⟩ := hEmits.exists_reads
    exact hReads.exists_word_iff.mp hWord
  · intro hAll p hp
    obtain ⟨k, hk⟩ := List.mem_iff_getElem?.mp hp
    obtain ⟨hEmits, hAddress⟩ := h.emits_of_getElem? hk
    obtain ⟨i, hReads⟩ := hEmits.exists_reads
    rw [hAddress]
    exact hReads.exists_word_iff.mpr (hAll k p.site p.instr hEmits)

theorem Tracks.words_eq_error (h : layout.Tracks bases lines) {d : Diagnostic}
    (hWords : layout.words = .error d) :
    ∃ k site s fault, Emits lines k site s ∧ s.Rejected (Bound bases lines) (wordAddress bases.text k) fault ∧
      d = .located site (.fault fault) ∧
      ∀ j < k, ∀ site' s', Emits lines j site' s' →
        s'.Resolvable (Bound bases lines) (wordAddress bases.text j) := by
  rw [← h.binds_eq]
  obtain ⟨k, p, hk, hError, hBefore⟩ := mapM_eq_error hWords
  obtain ⟨fault, hFault, rfl⟩ := locate_eq_error.mp hError
  obtain ⟨hEmits, hAddress⟩ := h.emits_of_getElem? hk
  obtain ⟨i, hReads⟩ := hEmits.exists_reads
  rw [hAddress] at hFault
  refine ⟨k, p.site, p.instr, fault, hEmits, hReads.rejected_of_word hFault, rfl, ?_⟩
  intro j hj site' s' hEmits'
  obtain ⟨w, hWord⟩ := hBefore j hj _ (h.emits_iff.mp hEmits')
  obtain ⟨i', hReads'⟩ := hEmits'.exists_reads
  exact hReads'.exists_word_iff.mp ⟨w, locate_eq_ok.mp hWord⟩

end Layout

theorem assembles_iff_resolvable {bases : Bases} {source : Text} {lines : List SourceLine}
    {layout : Layout} (hLines : SourceLine.readAll source = .ok lines)
    (hLayout : Layout.ofLines bases lines = .ok layout) :
    ((∃ image, assemble bases source = .ok image) ↔
      ∀ k site s, Emits lines k site s → s.Resolvable (Bound bases lines) (wordAddress bases.text k)) ∧
    ∀ d, assemble bases source = .error d →
      ∃ k site s fault, Emits lines k site s ∧
        s.Rejected (Bound bases lines) (wordAddress bases.text k) fault ∧
        d = .located site (.fault fault) ∧
        ∀ j < k, ∀ site' s', Emits lines j site' s' →
          s'.Resolvable (Bound bases lines) (wordAddress bases.text j) := by
  have hTracks := Layout.tracks_of_ofLines hLayout
  rw [assemble_of_layout hLines hLayout, ← hTracks.exists_words_iff]
  cases hWords : layout.words with
  | ok words => exact ⟨iff_of_true ⟨_, rfl⟩ ⟨words, rfl⟩, nofun⟩
  | error d =>
    refine ⟨iff_of_false nofun nofun, ?_⟩
    rintro _ ⟨⟩
    exact hTracks.words_eq_error hWords

theorem assembles_iff_resolvable_misaligned :
    ∃ source lines layout d, SourceLine.readAll source = .ok lines ∧ Layout.ofLines {} lines = .ok layout ∧
      assemble {} source = .error d ∧ d.kind = .malformed (.misalignedJump 6) ∧
      ∃ k site s fault, Emits lines k site s ∧
        s.Rejected (Bound {} lines) (wordAddress 0x00400000 k) fault ∧ d = .located site (.fault fault) := by
  have hAssemble : ∃ lines layout d,
      SourceLine.readAll "beq $t0, $t1, e\nj 6\nj gone\ne:".toList = .ok lines ∧
      Layout.ofLines {} lines = .ok layout ∧
      assemble {} "beq $t0, $t1, e\nj 6\nj gone\ne:".toList = .error d ∧
      d.kind = .malformed (.misalignedJump 6) := ⟨_, _, _, rfl, rfl, rfl, rfl⟩
  obtain ⟨lines, layout, d, hLines, hLayout, hError, hKind⟩ := hAssemble
  obtain ⟨k, site, s, fault, hEmits, hRejected, hSite, -⟩ :=
    (assembles_iff_resolvable hLines hLayout).2 d hError
  exact ⟨_, lines, layout, d, hLines, hLayout, hError, hKind, k, site, s, fault, hEmits, hRejected, hSite⟩

end MipsAsm
