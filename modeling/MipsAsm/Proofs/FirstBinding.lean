import MipsAsm.Proofs.Placement

/-!
Binding labels one after the other. Over any sequence of calls a table holds, for each segment and name, the
address of the first call, and every later call for them is refused. So calls for different labels may
change places: a table is known by its look-ups, since its bindings are sorted.
-/

set_option autoImplicit false

namespace MipsAsm

namespace Bindings

theorem lookup_eq_none_of_lt {name : Text} {entries : List (Text × Word)}
    (h : ∀ entry ∈ entries, name < entry.1) : entries.lookup name = none := by
  rw [List.lookup_eq_none_iff]
  intro entry hEntry
  have hNe : name ≠ entry.1 := by
    intro hEq
    exact List.lt_irrefl _ (hEq ▸ h entry hEntry)
  simpa using hNe

/-- The least name of one list is bound in the other, so it cannot lie below the least name there. -/
theorem not_lt_of_lookup_eq {low high : Text × Word} {lows highs : List (Text × Word)}
    (h : (low :: lows).lookup low.1 = (high :: highs).lookup low.1)
    (hSorted : ∀ other ∈ highs, high.1 < other.1) : ¬low.1 < high.1 := by
  intro hLess
  have hBelow : ∀ other ∈ high :: highs, low.1 < other.1 :=
    List.forall_mem_cons.mpr ⟨hLess, fun other hOther => List.lt_trans hLess (hSorted other hOther)⟩
  rw [lookup_cons, if_pos rfl, lookup_eq_none_of_lt hBelow] at h
  cases h

theorem entries_ext {entries entries' : List (Text × Word)}
    (hSorted : entries.Pairwise (fun a b => a.1 < b.1)) (hSorted' : entries'.Pairwise (fun a b => a.1 < b.1))
    (h : ∀ name, entries.lookup name = entries'.lookup name) : entries = entries' := by
  induction entries generalizing entries' with
  | nil =>
    cases entries' with
    | nil => rfl
    | cons entry' rest' =>
      have hHead := h entry'.1
      rw [lookup_cons, if_pos rfl] at hHead
      cases hHead
  | cons entry rest ih =>
    cases entries' with
    | nil =>
      have hHead := h entry.1
      rw [lookup_cons, if_pos rfl] at hHead
      cases hHead
    | cons entry' rest' =>
      obtain ⟨hFirst, hRest⟩ := List.pairwise_cons.mp hSorted
      obtain ⟨hFirst', hRest'⟩ := List.pairwise_cons.mp hSorted'
      have hKey : entry.1 = entry'.1 := by
        have hLe := List.not_lt.mp (not_lt_of_lookup_eq (h entry'.1).symm hFirst)
        have hGe := List.not_lt.mp (not_lt_of_lookup_eq (h entry.1) hFirst')
        exact List.le_antisymm hLe hGe
      have hValue : entry.2 = entry'.2 := by
        have hHead := h entry.1
        rw [lookup_cons, if_pos rfl, lookup_cons, if_pos hKey] at hHead
        exact Option.some.inj hHead
      have hTail : rest = rest' := by
        refine ih hRest hRest' fun name => ?_
        by_cases hName : name = entry.1
        · rw [hName, lookup_eq_none_of_lt hFirst, hKey, lookup_eq_none_of_lt hFirst']
        · have hBoth := h name
          rwa [lookup_cons, if_neg hName, lookup_cons, if_neg (hKey ▸ hName)] at hBoth
      rw [Prod.ext hKey hValue, hTail]

theorem ext_get? {b b' : Bindings} (h : ∀ name, b.get? name = b'.get? name) : b = b' := by
  obtain ⟨entries, hSorted⟩ := b
  obtain ⟨entries', hSorted'⟩ := b'
  obtain rfl : entries = entries' := entries_ext hSorted hSorted' h
  rfl

end Bindings

/-- A request to bind a label. -/
structure BindCall where
  segment : Segment
  name : Text
  address : Word
  deriving DecidableEq, Repr

/-- Labels of different segments are different, also when they have the same name. -/
def BindCall.key (c : BindCall) : Segment × Text := (c.segment, c.name)

namespace Symbols

theorem ext_get? {s s' : Symbols} (h : ∀ segment name, s.get? segment name = s'.get? segment name) : s = s' := by
  obtain ⟨text, data⟩ := s
  obtain ⟨text', data'⟩ := s'
  obtain rfl : text = text' := Bindings.ext_get? (h .text)
  obtain rfl : data = data' := Bindings.ext_get? (h .data)
  rfl

/-- The table behind a call, and what the call gives. -/
def call (s : Symbols) (c : BindCall) : Symbols × Except Fault Unit :=
  match s.bind c.segment c.name c.address with
  | .ok next => (next, .ok ())
  | .error fault => (s, .error fault)

/-- The table behind a sequence of calls, and what each of them gives. A call that is refused does not end
the sequence. -/
def run (s : Symbols) : List BindCall → Symbols × List (Except Fault Unit)
  | [] => (s, [])
  | c :: rest =>
    let later := (s.call c).1.run rest
    (later.1, (s.call c).2 :: later.2)

/-- A call is refused and changes nothing, or its label was free and is bound. -/
theorem call_cases (s : Symbols) (c : BindCall) :
    (∃ address, s.get? c.segment c.name = some address) ∧ s.call c = (s, .error (.duplicateLabel c.name)) ∨
      s.get? c.segment c.name = none ∧
        ∃ next, s.bind c.segment c.name c.address = .ok next ∧ s.call c = (next, .ok ()) := by
  unfold call
  cases hBind : s.bind c.segment c.name c.address with
  | ok next => exact .inr ⟨get?_eq_none_of_bind hBind, next, rfl, rfl⟩
  | error fault =>
    unfold bind at hBind
    split at hBind
    · rename_i hBound
      cases hBind
      exact .inl ⟨Option.isSome_iff_exists.mp hBound, rfl⟩
    · cases hBind

theorem get?_call (s : Symbols) (c : BindCall) (segment : Segment) (name : Text) :
    (s.call c).1.get? segment name =
      (s.get? segment name).or (if c.key = (segment, name) then some c.address else none) := by
  obtain ⟨⟨address, hBound⟩, hCall⟩ | ⟨hFree, next, hBind, hCall⟩ := s.call_cases c
  · rw [hCall]
    by_cases hKey : c.key = (segment, name)
    · cases hKey
      rw [hBound, Option.some_or]
    · rw [if_neg hKey, Option.or_none]
  · rw [hCall, get?_bind hBind]
    by_cases hKey : c.key = (segment, name)
    · cases hKey
      rw [if_pos ⟨rfl, rfl⟩, hFree, Option.none_or]
      exact (if_pos rfl).symm
    · have hOther : ¬(segment = c.segment ∧ name = c.name) := by
        rintro ⟨rfl, rfl⟩
        exact hKey rfl
      rw [if_neg hOther, if_neg hKey, Option.or_none]

theorem outcome_call (s : Symbols) (c : BindCall) :
    (s.call c).2 =
      if (s.get? c.segment c.name).isSome then .error (.duplicateLabel c.name) else .ok () := by
  obtain ⟨⟨address, hBound⟩, hCall⟩ | ⟨hFree, next, -, hCall⟩ := s.call_cases c
  · rw [hCall, hBound]
    rfl
  · rw [hCall, hFree]
    rfl

/-- The address of the first call for a label. -/
def firstAddress? (calls : List BindCall) (segment : Segment) (name : Text) : Option Word :=
  (calls.find? fun c => c.key = (segment, name)).map (·.address)

theorem firstAddress?_cons (c : BindCall) (rest : List BindCall) (segment : Segment) (name : Text) :
    firstAddress? (c :: rest) segment name =
      (if c.key = (segment, name) then some c.address else none).or (firstAddress? rest segment name) := by
  by_cases hKey : c.key = (segment, name)
  · simp [firstAddress?, hKey]
  · simp [firstAddress?, hKey]

theorem get?_run (s : Symbols) (calls : List BindCall) (segment : Segment) (name : Text) :
    (s.run calls).1.get? segment name = (s.get? segment name).or (firstAddress? calls segment name) := by
  induction calls generalizing s with
  | nil => exact (Option.or_none).symm
  | cons c rest ih =>
    rw [firstAddress?_cons, ← Option.or_assoc, ← get?_call]
    exact ih (s.call c).1

theorem run_append (s : Symbols) (front back : List BindCall) :
    s.run (front ++ back) =
      (((s.run front).1.run back).1, (s.run front).2 ++ ((s.run front).1.run back).2) := by
  induction front generalizing s with
  | nil => rfl
  | cons c rest ih => simp only [List.cons_append, run, ih]

theorem length_run (s : Symbols) (calls : List BindCall) : (s.run calls).2.length = calls.length := by
  induction calls generalizing s with
  | nil => rfl
  | cons c rest ih => simp only [run, List.length_cons, ih]

/-- A call for one label does not touch another. -/
theorem outcome_call_call (s : Symbols) {c d : BindCall} (h : c.key ≠ d.key) :
    ((s.call c).1.call d).2 = (s.call d).2 := by
  have hKey : c.key ≠ (d.segment, d.name) := h
  rw [outcome_call, outcome_call, get?_call, if_neg hKey, Option.or_none]

theorem call_comm (s : Symbols) {c d : BindCall} (h : c.key ≠ d.key) :
    ((s.call c).1.call d).1 = ((s.call d).1.call c).1 := by
  apply ext_get?
  intro segment name
  rw [get?_call, get?_call, get?_call, get?_call, Option.or_assoc, Option.or_assoc]
  congr 1
  by_cases hKey : c.key = (segment, name)
  · have hOther : d.key ≠ (segment, name) := fun hEq => h (hKey.trans hEq.symm)
    rw [if_neg hOther, Option.or_none, Option.none_or]
  · rw [if_neg hKey, Option.none_or, Option.or_none]

theorem get?_empty (segment : Segment) (name : Text) : empty.get? segment name = none := by
  cases segment <;> rfl

end Symbols

/-- The call is in the sequence, and none before it is for the same label. -/
def BindCall.IsFirst (calls : List BindCall) (c : BindCall) : Prop :=
  ∃ before after, calls = before ++ c :: after ∧ ∀ earlier ∈ before, earlier.key ≠ c.key

namespace Symbols

theorem firstAddress?_eq_some_iff {calls : List BindCall} {segment : Segment} {name : Text} {address : Word} :
    firstAddress? calls segment name = some address ↔ BindCall.IsFirst calls ⟨segment, name, address⟩ := by
  rw [firstAddress?, Option.map_eq_some_iff]
  constructor
  · rintro ⟨c, hFind, rfl⟩
    obtain ⟨hKey, before, after, hCalls, hBefore⟩ := List.find?_eq_some_iff_append.mp hFind
    obtain ⟨segment', name', address'⟩ := c
    cases of_decide_eq_true hKey
    refine ⟨before, after, hCalls, fun earlier hEarlier => ?_⟩
    exact of_decide_eq_false ((Bool.not_eq_true' _).mp (hBefore earlier hEarlier))
  · rintro ⟨before, after, hCalls, hBefore⟩
    refine ⟨⟨segment, name, address⟩, List.find?_eq_some_iff_append.mpr ?_, rfl⟩
    refine ⟨decide_eq_true rfl, before, after, hCalls, fun earlier hEarlier => ?_⟩
    exact (Bool.not_eq_true' _).mpr (decide_eq_false (hBefore earlier hEarlier))

theorem firstAddress?_eq_none_iff {calls : List BindCall} {segment : Segment} {name : Text} :
    firstAddress? calls segment name = none ↔ ∀ c ∈ calls, c.key ≠ (segment, name) := by
  simp [firstAddress?]

/-- A fresh table behind a sequence of calls holds what was bound first. -/
theorem get?_run_empty (calls : List BindCall) (segment : Segment) (name : Text) :
    (empty.run calls).1.get? segment name = firstAddress? calls segment name := by
  rw [get?_run, get?_empty, Option.none_or]

theorem lookup_eq_error_iff {s : Symbols} {segment : Segment} {name : Text} {fault : Fault} :
    s.lookup segment name = .error fault ↔ fault = .undefinedLabel name ∧ s.get? segment name = none := by
  unfold lookup
  cases s.get? segment name with
  | none => simp [eq_comm]
  | some address => simp

theorem call_eq_error_iff {s : Symbols} {c : BindCall} {fault : Fault} :
    (s.call c).2 = .error fault ↔ fault = .duplicateLabel c.name ∧ s.get? c.segment c.name ≠ none := by
  obtain ⟨⟨address, hBound⟩, hCall⟩ | ⟨hFree, next, -, hCall⟩ := s.call_cases c
  · simp [hCall, hBound, eq_comm]
  · simp [hCall, hFree]

theorem call_of_error {s : Symbols} {c : BindCall} {fault : Fault} (h : (s.call c).2 = .error fault) :
    (s.call c).1 = s := by
  obtain ⟨-, hCall⟩ | ⟨-, next, -, hCall⟩ := s.call_cases c
  · rw [hCall]
  · rw [hCall] at h
    cases h

theorem outcome_run (s : Symbols) (before : List BindCall) (c : BindCall) (after : List BindCall) :
    (s.run (before ++ c :: after)).2[before.length]? = some ((s.run before).1.call c).2 := by
  rw [run_append, ← length_run s before, List.getElem?_append_right (Nat.le_refl _), Nat.sub_self]
  rfl

theorem run_swap (s : Symbols) {c d : BindCall} (h : c.key ≠ d.key) (after : List BindCall) :
    (s.run (d :: c :: after)).1 = (s.run (c :: d :: after)).1 ∧
      ∃ back, (s.run (c :: d :: after)).2 = (s.call c).2 :: (s.call d).2 :: back ∧
        (s.run (d :: c :: after)).2 = (s.call d).2 :: (s.call c).2 :: back := by
  simp only [run]
  rw [outcome_call_call s h, outcome_call_call s h.symm, call_comm s h]
  exact ⟨rfl, _, rfl, rfl⟩

end Symbols

open Symbols

/-- Over any sequence of calls on a fresh table, a call is refused exactly if an earlier one was for the same
label, and then changes nothing. In the end each label has its first address, and two neighbours for
different labels may change places. -/
theorem first_binding_wins (calls : List BindCall) :
    (∀ before c after, calls = before ++ c :: after →
      let s := (empty.run before).1
      (empty.run calls).2[before.length]? = some (s.call c).2 ∧
      (∀ fault, (s.call c).2 = .error fault ↔
        fault = .duplicateLabel c.name ∧ ∃ earlier ∈ before, earlier.key = c.key) ∧
      ∀ fault, (s.call c).2 = .error fault → (s.call c).1 = s) ∧
    (∀ segment name,
      (∀ address, (empty.run calls).1.lookup segment name = .ok address ↔
        BindCall.IsFirst calls ⟨segment, name, address⟩) ∧
      ∀ fault, (empty.run calls).1.lookup segment name = .error fault ↔
        fault = .undefinedLabel name ∧ ∀ c ∈ calls, c.key ≠ (segment, name)) ∧
    ∀ before c d after, calls = before ++ c :: d :: after → c.key ≠ d.key →
      (empty.run (before ++ d :: c :: after)).1 = (empty.run calls).1 ∧
      ∃ front first second back, front.length = before.length ∧
        (empty.run calls).2 = front ++ first :: second :: back ∧
        (empty.run (before ++ d :: c :: after)).2 = front ++ second :: first :: back := by
  refine ⟨?_, fun segment name => ⟨fun address => ?_, fun fault => ?_⟩, ?_⟩
  · rintro before c after rfl
    refine ⟨outcome_run empty before c after, fun fault => ?_, fun fault => call_of_error⟩
    rw [call_eq_error_iff, get?_run_empty, Ne, firstAddress?_eq_none_iff]
    simp [BindCall.key]
  · rw [lookup_eq_ok_iff, get?_run_empty, firstAddress?_eq_some_iff]
  · rw [lookup_eq_error_iff, get?_run_empty, firstAddress?_eq_none_iff]
  · rintro before c d after rfl hKeys
    obtain ⟨hTable, back, hOutcomes, hSwapped⟩ := (empty.run before).1.run_swap hKeys after
    rw [run_append, run_append]
    exact ⟨hTable, (empty.run before).2, _, _, back, length_run empty before,
      congrArg ((empty.run before).2 ++ ·) hOutcomes, congrArg ((empty.run before).2 ++ ·) hSwapped⟩

theorem first_binding_wins_twice :
    let name := "main".toList
    let first : BindCall := ⟨.text, name, 0x00400000⟩
    let second : BindCall := ⟨.data, name, 0x10010000⟩
    let third : BindCall := ⟨.text, name, 0x00400004⟩
    let s := (empty.run [first, second]).1
    (s.call third).2 = .error (.duplicateLabel name) ∧ (s.call third).1 = s ∧
      BindCall.IsFirst [first, second, third] first ∧
      (empty.run [first, second, third]).1.lookup .text name = .ok 0x00400000 ∧
      first.key ≠ second.key ∧
      (empty.run [second, first, third]).1 = (empty.run [first, second, third]).1 := by
  intro name first second third s
  obtain ⟨hCalls, hLookup, hSwap⟩ := first_binding_wins [first, second, third]
  obtain ⟨-, hRefused, hSame⟩ := hCalls [first, second] third [] rfl
  have hTaken := (hRefused (.duplicateLabel name)).mpr ⟨rfl, first, List.mem_cons_self, rfl⟩
  have hFirst : BindCall.IsFirst [first, second, third] first :=
    ⟨[], [second, third], rfl, List.forall_mem_nil _⟩
  have hKeys : first.key ≠ second.key := by
    rintro ⟨⟩
  exact ⟨hTaken, hSame _ hTaken, hFirst, ((hLookup .text name).1 _).mpr hFirst, hKeys,
    (hSwap [] first second [third] rfl hKeys).1⟩

end MipsAsm
