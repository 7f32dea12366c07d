import MipsAsm.Proofs.Expansion
import MipsAsm.Proofs.Resolvability
import MipsAsm.Proofs.Sites
import MipsAsm.Proofs.Strings

/-!
A source of one instruction. Assembled as a program, all that the instruction stands for is read before
any of it is encoded; assembled by itself, each part is encoded as soon as it is read. The two differ only
where a part before the last can be read and not encoded, and no part but the upper half of a label's
address is like that.
-/

set_option autoImplicit false

namespace MipsAsm

open Outcome Text

namespace Outcome

section Passes

variable {ε α β γ : Type} (f : α → Except ε β) (g : β → Nat → Except ε γ)

/-- Both steps for an item, numbered from `n` on, before the next. -/
def inTurn (xs : List α) (n : Nat) : Except ε (List γ) :=
  (xs.zipIdx n).mapM fun (placed : α × Nat) => do g (← f placed.1) placed.2

/-- The first step for all items before the second for any. -/
def inPasses (xs : List α) (n : Nat) : Except ε (List γ) := do
  let ys ← xs.mapM f
  (ys.zipIdx n).mapM fun (placed : β × Nat) => g placed.1 placed.2

variable {f g}

theorem inTurn_cons {x : α} {y : β} {z : γ} {n : Nat} (hx : f x = .ok y) (hy : g y n = .ok z) (xs : List α) :
    inTurn f g (x :: xs) n = (inTurn f g xs (n + 1)).map (z :: ·) := by
  rw [inTurn, List.zipIdx_cons, List.mapM_cons, hx]
  change (do let w ← g y n; return w :: (← inTurn f g xs (n + 1))) = _
  rw [hy]
  cases inTurn f g xs (n + 1) <;> rfl

theorem inPasses_of_mapM {xs : List α} {ys : List β} (h : xs.mapM f = .ok ys) (n : Nat) :
    inPasses f g xs n = (ys.zipIdx n).mapM fun (placed : β × Nat) => g placed.1 placed.2 := by
  rw [inPasses, h]
  rfl

theorem mapM_cons_eq_ok {x : α} {y : β} {xs : List α} {ys : List β} (hx : f x = .ok y)
    (hRest : xs.mapM f = .ok ys) : (x :: xs).mapM f = .ok (y :: ys) :=
  mapM_eq_ok_iff.mpr (.cons hx (mapM_eq_ok_iff.mp hRest))

theorem inPasses_cons {x : α} {y : β} {z : γ} {n : Nat} (hx : f x = .ok y) (hy : g y n = .ok z)
    (xs : List α) : inPasses f g (x :: xs) n = (inPasses f g xs (n + 1)).map (z :: ·) := by
  cases hRest : xs.mapM f with
  | error e =>
    rw [inPasses, inPasses, List.mapM_cons, hx, hRest]
    rfl
  | ok ys =>
    rw [inPasses_of_mapM (mapM_cons_eq_ok hx hRest), inPasses_of_mapM hRest, List.zipIdx_cons, List.mapM_cons, hy]
    cases (ys.zipIdx (n + 1)).mapM fun (placed : β × Nat) => g placed.1 placed.2 <;> rfl

theorem inTurn_cons_error {x : α} {y : β} {n : Nat} {e : ε} (hx : f x = .ok y) (hy : g y n = .error e)
    (xs : List α) : inTurn f g (x :: xs) n = .error e := by
  rw [inTurn, List.zipIdx_cons, List.mapM_cons, hx]
  exact bind_eq_error.mpr (.inl hy)

/-- The first steps for the items behind `x` can fail before the second step for `x` does. -/
theorem inPasses_cons_error {x : α} {y : β} {n : Nat} {e : ε} (hx : f x = .ok y) (hy : g y n = .error e)
    (xs : List α) :
    inPasses f g (x :: xs) n = .error e ∨ xs ≠ [] ∧ ∃ e', inPasses f g (x :: xs) n = .error e' := by
  cases hRest : xs.mapM f with
  | ok ys =>
    left
    rw [inPasses_of_mapM (mapM_cons_eq_ok hx hRest), List.zipIdx_cons, List.mapM_cons, hy]
    rfl
  | error e' =>
    refine .inr ⟨?_, e', ?_⟩
    · rintro rfl
      cases hRest
    · rw [inPasses, List.mapM_cons, hx, hRest]
      rfl

variable (f g)

/-- The order of the steps matters only if the second step fails for an item before the last, and then
they fail in either order. -/
theorem inTurn_cases (xs : List α) (n : Nat) :
    inTurn f g xs n = inPasses f g xs n ∨
      (∃ x ∈ xs.dropLast, ∃ y k e, f x = .ok y ∧ g y k = .error e) ∧
        ∃ e e', inTurn f g xs n = .error e ∧ inPasses f g xs n = .error e' := by
  induction xs generalizing n with
  | nil => exact .inl rfl
  | cons x xs ih =>
    cases hx : f x with
    | error e =>
      left
      rw [inTurn, inPasses, List.zipIdx_cons, List.mapM_cons, List.mapM_cons, hx]
      rfl
    | ok y =>
      cases hy : g y n with
      | ok z =>
        rw [inTurn_cons hx hy, inPasses_cons hx hy]
        obtain hSame | ⟨⟨late, hLate, hFails⟩, e, e', hTurn, hPasses⟩ := ih (n + 1)
        · exact .inl (by rw [hSame])
        · have hNe : xs ≠ [] := List.ne_nil_of_mem ((List.dropLast_sublist xs).subset hLate)
          refine .inr ⟨⟨late, ?_, hFails⟩, e, e', by rw [hTurn]; rfl, by rw [hPasses]; rfl⟩
          rw [List.dropLast_cons_of_ne_nil hNe]
          exact List.mem_cons_of_mem x hLate
      | error e =>
        have hTurn := inTurn_cons_error hx hy xs
        obtain hPasses | ⟨hNe, e', hPasses⟩ := inPasses_cons_error hx hy xs
        · exact .inl (hTurn.trans hPasses.symm)
        · refine .inr ⟨⟨x, ?_, y, n, e, hx, hy⟩, e, e', hTurn, hPasses⟩
          rw [List.dropLast_cons_of_ne_nil hNe]
          exact List.mem_cons_self

end Passes

end Outcome

/-- A line that holds an instruction and no label. -/
structure InstrLine (line : Text) : Prop where
  feed : '\n' ∉ line
  ne_nil : content line ≠ []
  not_dot : (content line).head? ≠ some '.'
  not_label : ':' ∉ (content line).takeWhile (· ≠ '"')

theorem Layout.foldlM_emitInstr_eq (site : Site) (base : Word) (concrete : List InstrText) {l : Layout} {n : Nat}
    (hNext : l.textNext = wordAddress base n) :
    concrete.foldlM (fun (l : Layout) i => do return l.emitInstr site (← SymInstr.read i)) l =
      (concrete.mapM SymInstr.read).map fun instrs =>
        { l with
          textNext := wordAddress base (n + instrs.length)
          text := l.text ++ (instrs.zipIdx n).map fun placed : SymInstr × Nat =>
            (⟨wordAddress base placed.2, site, placed.1⟩ : Placed) } := by
  induction concrete generalizing l n with
  | nil => simp [Except.map, pure, Except.pure, ← hNext]
  | cons i rest ih =>
    rw [List.foldlM_cons, List.mapM_cons]
    cases SymInstr.read i with
    | error fault => rfl
    | ok s =>
      have hStep : (l.emitInstr site s).textNext = wordAddress base (n + 1) := by
        rw [← wordAddress_succ, ← hNext]
        rfl
      change rest.foldlM _ (l.emitInstr site s) = _
      rw [ih hStep]
      cases rest.mapM SymInstr.read with
      | error fault => rfl
      | ok instrs =>
        refine congrArg Except.ok ?_
        simp [emitInstr, hNext, Nat.add_comm, Nat.add_left_comm]

namespace InstrLine

variable {line : Text} (h : InstrLine line)

include h

theorem read_eq (site : Site) (hText : site.text = content line) :
    SourceLine.read site =
      (InstrText.read (content line)).map fun i => ⟨site, none, some (.instr i)⟩ := by
  rw [SourceLine.read, hText, SourceLine.splitLabel_of_takeWhile h.not_label]
  have hNe : (content line).isEmpty = false := by simpa using h.ne_nil
  change (if (content line).isEmpty = true then _ else _) = _
  rw [hNe, Statement.read, if_neg h.not_dot]
  cases InstrText.read (content line) <;> rfl

theorem readAll_eq : SourceLine.readAll line =
    Diagnostic.locate ⟨1, content line⟩
      ((InstrText.read (content line)).map fun i => [⟨⟨1, content line⟩, none, some (.instr i)⟩]) := by
  rw [SourceLine.readAll, SourceLine.sites_of_line h.feed h.ne_nil, List.mapM_cons, List.mapM_nil,
    h.read_eq ⟨1, content line⟩ rfl]
  cases InstrText.read (content line) <;> rfl

end InstrLine

theorem locate_mapM {α β : Type} (site : Site) (f : α → Except Fault β) (xs : List α) :
    xs.mapM (fun x => Diagnostic.locate site (f x)) = Diagnostic.locate site (xs.mapM f) := by
  rw [Diagnostic.locate, ← carry_id, ← List.map_id_fun]
  exact mapM_carry (fun x => (carry_id _ _).symm) xs

/-- Encodes an instruction that comes as the `k`-th of its line, with no label bound. -/
def SymInstr.wordAt (bases : Bases) (s : SymInstr) (k : Nat) : Except Fault Word :=
  s.word .empty (wordAddress bases.text k)

namespace Layout

/-- What instructions of one line, and nothing else, are laid out to. -/
def ofInstrs (bases : Bases) (site : Site) (instrs : List SymInstr) : Layout :=
  { start bases with
    textNext := wordAddress bases.text instrs.length
    text := (instrs.zipIdx.map fun placed : SymInstr × Nat =>
      (⟨wordAddress bases.text placed.2, site, placed.1⟩ : Placed)).toArray }

theorem ofLines_instr (bases : Bases) (site : Site) (i : InstrText) :
    ofLines bases [⟨site, none, some (.instr i)⟩] = Diagnostic.locate site (do
      let concrete ← i.expand
      (concrete.mapM SymInstr.read).map (ofInstrs bases site)) := by
  simp only [ofLines, List.foldlM_cons, List.foldlM_nil, bind_pure]
  refine congrArg (Diagnostic.locate site) ?_
  change (do (← i.expand).foldlM _ (start bases)) = _
  cases i.expand with
  | error fault => rfl
  | ok concrete =>
    have hFold := foldlM_emitInstr_eq site bases.text concrete (l := start bases) (wordAddress_zero _).symm
    refine hFold.trans (congrArg (Except.map · (concrete.mapM SymInstr.read)) (funext fun instrs => ?_))
    simp [ofInstrs, start]

theorem words_ofInstrs (bases : Bases) (site : Site) (instrs : List SymInstr) :
    (ofInstrs bases site instrs).words =
      Diagnostic.locate site (instrs.zipIdx.mapM fun placed => placed.1.wordAt bases placed.2) := by
  rw [words, ofInstrs, List.mapM_map, ← locate_mapM]
  rfl

end Layout

/-- The instructions that a line's instruction stands for. -/
def concreteOf (line : Text) : Except Fault (List InstrText) := do (← InstrText.read (content line)).expand

theorem assembleLine_eq (bases : Bases) (line : Text) :
    assembleLine bases line =
      concreteOf line >>= (inTurn SymInstr.read (SymInstr.wordAt bases) · 0) := by
  rw [concreteOf, bind_assoc]
  rfl

theorem InstrLine.ofLines_eq {line : Text} (h : InstrLine line) (bases : Bases) :
    SourceLine.readAll line >>= Layout.ofLines bases = Diagnostic.locate ⟨1, content line⟩ (do
      let concrete ← concreteOf line
      (concrete.mapM SymInstr.read).map (Layout.ofInstrs bases ⟨1, content line⟩)) := by
  rw [h.readAll_eq, concreteOf]
  cases InstrText.read (content line) with
  | error fault => rfl
  | ok i => exact Layout.ofLines_instr bases ⟨1, content line⟩ i

theorem InstrLine.assemble_eq {line : Text} (h : InstrLine line) (bases : Bases) :
    assemble bases line = Diagnostic.locate ⟨1, content line⟩
      ((concreteOf line >>= (inPasses SymInstr.read (SymInstr.wordAt bases) · 0)).map
        fun words => ⟨words, [], .empty⟩) := by
  rw [assemble, ← bind_assoc, h.ofLines_eq]
  cases concreteOf line with
  | error fault => rfl
  | ok concrete =>
    change (do
      let layout ← Diagnostic.locate _ ((concrete.mapM SymInstr.read).map (Layout.ofInstrs bases _))
      return (⟨← layout.words, layout.data.toList, layout.symbols⟩ : Image)) =
        Diagnostic.locate _ ((inPasses SymInstr.read (SymInstr.wordAt bases) concrete 0).map _)
    cases hInstrs : concrete.mapM SymInstr.read with
    | error fault =>
      rw [inPasses, hInstrs]
      rfl
    | ok instrs =>
      rw [inPasses_of_mapM hInstrs]
      change (do return (⟨← (Layout.ofInstrs bases ⟨1, content line⟩ instrs).words, [], .empty⟩ : Image)) = _
      rw [Layout.words_ofInstrs]
      cases instrs.zipIdx.mapM fun placed => placed.1.wordAt bases placed.2 <;> rfl

theorem SymInstr.exists_register_of_read {m : Mnemonic} {rd rs rt : Text} {s : SymInstr}
    (hForm : m.operandForm = .rdRsRt) (h : read ⟨m.name, [rd, rs, rt]⟩ = .ok s) :
    ∃ d r t, s = .register m d r t := by
  obtain ⟨found, hNamed, hOperands⟩ := bind_eq_ok.mp h
  obtain rfl : m = found := Mnemonic.name_inj.mp (Mnemonic.named_eq_ok_iff.mp hNamed)
  simp only [hForm, bind_eq_ok, pure_eq_ok] at hOperands
  obtain ⟨d, -, r, -, t, -, rfl⟩ := hOperands
  exact ⟨d, r, t, rfl⟩

theorem Imm.exists_value_of_read {s : Signedness} {t : Text} {imm : Imm} (hHead : t.head? ≠ some '%')
    (h : Imm.read s t = .ok imm) : ∃ v, imm = .value v := by
  rw [read, halfLabel?_of_head hHead _ rfl, halfLabel?_of_head hHead _ rfl] at h
  obtain ⟨v, -, h⟩ := bind_eq_ok.mp h
  obtain ⟨-, -, h⟩ := bind_eq_ok.mp h
  exact ⟨v, (pure_eq_ok.mp h).symm⟩

/-- Before the last of the instructions that another one stands for come only such as need no label,
unless an address is loaded. -/
theorem InstrText.Expands.exists_word {i c : InstrText} {concrete : List InstrText} (h : Expands i concrete)
    (hName : i.mnemonic ≠ "la".toList) (hc : c ∈ concrete.dropLast) {s : SymInstr}
    (hRead : SymInstr.read c = .ok s) (symbols : Symbols) (p : Word) : ∃ w, s.word symbols p = .ok w := by
  rw [(SymInstr.reads_of_read_eq hRead).exists_word_iff]
  cases h with
  | self => cases hc
  | short => cases hc
  | move => cases hc
  | address => exact absurd rfl hName
  | long rd imm high low =>
    rw [List.mem_singleton.mp hc] at hRead
    obtain ⟨t, value, -, hImm, rfl⟩ := SymInstr.exists_upper_of_read (m := .lui) rfl hRead
    obtain ⟨v, rfl⟩ := Imm.exists_value_of_read (by simp [Numeral.markedHex]) hImm
    exact ⟨nofun, nofun, nofun⟩
  | less rs rt target =>
    rw [List.mem_singleton.mp hc] at hRead
    obtain ⟨d, r, t, rfl⟩ := SymInstr.exists_register_of_read (m := .slt) rfl hRead
    exact ⟨nofun, nofun, nofun⟩

/-- No address can be loaded where no label is bound. -/
theorem inTurn_of_la {i : InstrText} {concrete : List InstrText} (hName : i.mnemonic = "la".toList)
    (h : i.expand = .ok concrete) (bases : Bases) :
    ∃ fault, inTurn SymInstr.read (SymInstr.wordAt bases) concrete 0 = .error fault := by
  obtain ⟨rd, name, -, hLabel, rfl⟩ := InstrText.expand_la hName h
  cases hTurn : inTurn SymInstr.read (SymInstr.wordAt bases) _ 0 with
  | error fault => exact ⟨fault, rfl⟩
  | ok words =>
    obtain ⟨w, rest, hFirst, -, -⟩ := List.forall₂_cons_left_iff.mp (mapM_eq_ok_iff.mp hTurn)
    obtain ⟨s, hRead, hWord⟩ := bind_eq_ok.mp hFirst
    obtain ⟨address, hGet, -⟩ := SymInstr.decode_upper_half hLabel hRead hWord
    cases hGet

section Agreement

variable (bases : Bases) {line : Text}

theorem exists_expand_of_concreteOf {concrete : List InstrText} (h : concreteOf line = .ok concrete) :
    ∃ i : InstrText, i.mnemonic = (splitBlank (content line)).1 ∧ i.expand = .ok concrete := by
  obtain ⟨i, hRead, hExpand⟩ := bind_eq_ok.mp h
  have hMnemonic := (InstrText.halves_of_read hRead).2.1
  rw [content, trim_trim] at hMnemonic
  exact ⟨i, hMnemonic, hExpand⟩

theorem assembleLine_of_la (hName : (splitBlank (content line)).1 = "la".toList) :
    ∃ fault, assembleLine bases line = .error fault := by
  rw [assembleLine_eq]
  cases hConcrete : concreteOf line with
  | error fault => exact ⟨fault, rfl⟩
  | ok concrete =>
    obtain ⟨i, hMnemonic, hExpand⟩ := exists_expand_of_concreteOf hConcrete
    exact inTurn_of_la (hMnemonic.trans hName) hExpand bases

/-- As a program a line gives what it gives by itself, or it loads an address and fails both ways. -/
theorem InstrLine.assemble_cases (h : InstrLine line) :
    assemble bases line = Diagnostic.locate ⟨1, content line⟩
        ((assembleLine bases line).map fun words => ⟨words, [], .empty⟩) ∨
      (splitBlank (content line)).1 = "la".toList ∧
        (∃ fault, assembleLine bases line = .error fault) ∧
        ∃ fault, assemble bases line = .error (.located ⟨1, content line⟩ (.fault fault)) := by
  rw [h.assemble_eq, assembleLine_eq]
  cases hConcrete : concreteOf line with
  | error fault => exact .inl rfl
  | ok concrete =>
    obtain ⟨i, hMnemonic, hExpand⟩ := exists_expand_of_concreteOf hConcrete
    change Diagnostic.locate _ ((inPasses SymInstr.read (SymInstr.wordAt bases) concrete 0).map _) =
        Diagnostic.locate _ ((inTurn SymInstr.read (SymInstr.wordAt bases) concrete 0).map _) ∨
      _ ∧ (∃ fault, inTurn SymInstr.read (SymInstr.wordAt bases) concrete 0 = .error fault) ∧
        ∃ fault, Diagnostic.locate _ ((inPasses SymInstr.read (SymInstr.wordAt bases) concrete 0).map _) =
          .error (.located _ (.fault fault))
    obtain hSame | ⟨⟨c, hc, s, k, e, hRead, hFails⟩, fault, found, hTurn, hPasses⟩ :=
      inTurn_cases SymInstr.read (SymInstr.wordAt bases) concrete 0
    · exact .inl (by rw [hSame])
    · refine .inr ⟨?_, ⟨fault, hTurn⟩, found, by rw [hPasses]; rfl⟩
      by_contra hName
      rw [← hMnemonic] at hName
      obtain ⟨w, hWord⟩ := (InstrText.expands_of_expand hExpand).exists_word hName hc hRead .empty _
      rw [SymInstr.wordAt, hWord] at hFails
      cases hFails

end Agreement

/-- A line that holds an instruction is assembled to the same words by itself and as a program. Where that
fails, the program's error is the line's, located at the line, unless the line loads an address. -/
theorem single_line_is_program (bases : Bases) {line : Text} (h : InstrLine line) :
    (∀ words, assembleLine bases line = .ok words ↔ assemble bases line = .ok ⟨words, [], .empty⟩) ∧
      (∀ fault, assembleLine bases line = .error fault →
        ∃ found, assemble bases line = .error (.located ⟨1, content line⟩ (.fault found)) ∧
          ((splitBlank (content line)).1 ≠ "la".toList → found = fault)) ∧
      ((splitBlank (content line)).1 = "la".toList →
        (∃ fault, assembleLine bases line = .error fault) ∧ ∃ d, assemble bases line = .error d) := by
  obtain hSame | ⟨hName, ⟨fault, hLine⟩, found, hProgram⟩ := h.assemble_cases bases
  · refine ⟨fun words => ?_, fun fault hLine => ?_, fun hName => ?_⟩
    · rw [hSame, locate_eq_ok, map_eq_ok]
      simp
    · rw [hLine] at hSame
      exact ⟨fault, hSame, fun _ => rfl⟩
    · obtain ⟨fault, hLine⟩ := assembleLine_of_la bases hName
      rw [hLine] at hSame
      exact ⟨⟨fault, hLine⟩, _, hSame⟩
  · refine ⟨fun words => ?_, fun _ _ => ⟨found, hProgram, fun hOther => absurd hName hOther⟩,
      fun _ => ⟨⟨fault, hLine⟩, _, hProgram⟩⟩
    rw [hLine, hProgram]
    exact iff_of_false nofun nofun

-- The register of `la $bad, x` is read before the label of its upper half is looked up, or after.
theorem single_line_is_program_la :
    (∃ words, words.length = 2 ∧ assembleLine {} "\tblt $t0, $t1, -3 # x:".toList = .ok words ∧
      assemble {} "\tblt $t0, $t1, -3 # x:".toList = .ok ⟨words, [], .empty⟩) ∧
    ∃ fault found, fault ≠ found ∧ assembleLine {} "la $bad, x".toList = .error fault ∧
      assemble {} "la $bad, x".toList = .error (.located ⟨1, "la $bad, x".toList⟩ (.fault found)) := by
  constructor
  · have hLine : InstrLine "\tblt $t0, $t1, -3 # x:".toList :=
      ⟨by decide, by decide, by decide, by decide⟩
    have hWords : ∃ words, words.length = 2 ∧
        assembleLine {} "\tblt $t0, $t1, -3 # x:".toList = .ok words := ⟨_, rfl, rfl⟩
    obtain ⟨words, hLength, hWords⟩ := hWords
    exact ⟨words, hLength, hWords, ((single_line_is_program {} hLine).1 words).mp hWords⟩
  · have hLine : InstrLine "la $bad, x".toList := ⟨by decide, by decide, by decide, by decide⟩
    have hFails : assembleLine {} "la $bad, x".toList = .error (.undefinedLabel "x".toList) := rfl
    obtain ⟨found, hFound, -⟩ := (single_line_is_program {} hLine).2.1 _ hFails
    refine ⟨_, found, ?_, hFails, hFound⟩
    rintro rfl
    cases hFound

end MipsAsm
