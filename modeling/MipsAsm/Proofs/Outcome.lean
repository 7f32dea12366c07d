import Mathlib.Data.List.Forall2
import Mathlib.Data.List.Induction
import MipsAsm.Diagnostic

/-!
Results of computations that may fail: what the steps of one that ended well have given, where one that
failed has stopped, and what a run over a list keeps.
-/

set_option autoImplicit false

namespace MipsAsm.Outcome

variable {ε ε' α α' β β' σ τ : Type}

@[simp] theorem bind_eq_ok {x : Except ε α} {f : α → Except ε β} {b : β} :
    (x >>= f) = .ok b ↔ ∃ a, x = .ok a ∧ f a = .ok b := by
  cases x with
  | error e => simp [bind, Except.bind]
  | ok a => simp [bind, Except.bind]

@[simp] theorem pure_eq_ok {a b : α} : (pure a : Except ε α) = .ok b ↔ a = b := by
  simp [pure, Except.pure]

theorem map_eq_ok {x : Except ε α} {f : α → β} {b : β} : x.map f = .ok b ↔ ∃ a, x = .ok a ∧ f a = b := by
  cases x with
  | error e => simp [Except.map]
  | ok a => simp [Except.map]

@[simp] theorem mapError_eq_ok {x : Except ε α} {f : ε → ε'} {a : α} :
    x.mapError f = .ok a ↔ x = .ok a := by
  cases x with
  | error e => simp [Except.mapError]
  | ok a => simp [Except.mapError]

@[simp] theorem locate_eq_ok {site : Site} {x : Except Fault α} {a : α} :
    Diagnostic.locate site x = .ok a ↔ x = .ok a :=
  mapError_eq_ok

theorem mapM_eq_ok_iff {f : α → Except ε β} {xs : List α} {ys : List β} :
    xs.mapM f = .ok ys ↔ List.Forall₂ (fun x y => f x = .ok y) xs ys := by
  induction xs generalizing ys with
  | nil =>
    rw [List.mapM_nil, pure_eq_ok, List.forall₂_nil_left_iff]
    exact eq_comm
  | cons x xs ih =>
    rw [List.mapM_cons, bind_eq_ok, List.forall₂_cons_left_iff]
    constructor
    · rintro ⟨y, hHead, hRest⟩
      obtain ⟨rest, hTail, hList⟩ := bind_eq_ok.mp hRest
      exact ⟨y, rest, hHead, ih.mp hTail, (pure_eq_ok.mp hList).symm⟩
    · rintro ⟨y, rest, hHead, hTail, rfl⟩
      exact ⟨y, hHead, bind_eq_ok.mpr ⟨rest, ih.mpr hTail, rfl⟩⟩

theorem exists_getElem?_of_forall₂ {R : α → β → Prop} {xs : List α} {ys : List β}
    (h : List.Forall₂ R xs ys) {k : Nat} {x : α} (hx : xs[k]? = some x) :
    ∃ y, ys[k]? = some y ∧ R x y := by
  induction h generalizing k with
  | nil => cases hx
  | cons hHead _ ih =>
    cases k with
    | zero =>
      cases hx
      exact ⟨_, rfl, hHead⟩
    | succ k => exact ih hx

theorem exists_of_forall₂ {R : α → β → Prop} {xs : List α} {ys : List β} (h : List.Forall₂ R xs ys) {x : α}
    (hx : x ∈ xs) : ∃ y, R x y := by
  obtain ⟨k, hk⟩ := List.mem_iff_getElem?.mp hx
  obtain ⟨y, -, hy⟩ := exists_getElem?_of_forall₂ h hk
  exact ⟨y, hy⟩

theorem exists_forall₂ {R : α → β → Prop} {xs : List α} (h : ∀ x ∈ xs, ∃ y, R x y) :
    ∃ ys, List.Forall₂ R xs ys := by
  induction xs with
  | nil => exact ⟨[], .nil⟩
  | cons x xs ih =>
    obtain ⟨y, hHead⟩ := h x List.mem_cons_self
    obtain ⟨ys, hTail⟩ := ih (fun x' hx' => h x' (List.mem_cons_of_mem _ hx'))
    exact ⟨y :: ys, .cons hHead hTail⟩

theorem forall₂_comp {γ : Type} {R : α → β → Prop} {S : β → γ → Prop} {xs : List α} {zs : List γ} :
    (∃ ys, List.Forall₂ R xs ys ∧ List.Forall₂ S ys zs) ↔
      List.Forall₂ (fun x z => ∃ y, R x y ∧ S y z) xs zs := by
  constructor
  · rintro ⟨ys, hFirst, hSecond⟩
    induction hFirst generalizing zs with
    | nil =>
      cases hSecond
      exact .nil
    | cons hHead _ ih =>
      cases hSecond with
      | cons hNext hRest => exact .cons ⟨_, hHead, hNext⟩ (ih hRest)
  · intro h
    induction h with
    | nil => exact ⟨[], .nil, .nil⟩
    | cons hHead _ ih =>
      obtain ⟨y, hFirst, hSecond⟩ := hHead
      obtain ⟨ys, hFirsts, hSeconds⟩ := ih
      exact ⟨y :: ys, .cons hFirst hFirsts, .cons hSecond hSeconds⟩

theorem exists_mapM_iff {f : α → Except ε β} {xs : List α} :
    (∃ ys, xs.mapM f = .ok ys) ↔ ∀ x ∈ xs, ∃ y, f x = .ok y := by
  simp only [mapM_eq_ok_iff]
  constructor
  · rintro ⟨ys, hAll⟩ x hx
    exact exists_of_forall₂ hAll hx
  · exact exists_forall₂

theorem bind_eq_error {x : Except ε α} {f : α → Except ε β} {e : ε} :
    (x >>= f) = .error e ↔ x = .error e ∨ ∃ a, x = .ok a ∧ f a = .error e := by
  cases x with
  | error e' => simp [bind, Except.bind]
  | ok a => simp [bind, Except.bind]

theorem mapError_eq_error {x : Except ε α} {f : ε → ε'} {e : ε'} :
    x.mapError f = .error e ↔ ∃ cause, x = .error cause ∧ e = f cause := by
  cases x with
  | error cause => simp [Except.mapError, eq_comm]
  | ok a => simp [Except.mapError]

theorem locate_eq_error {site : Site} {x : Except Fault α} {d : Diagnostic} :
    Diagnostic.locate site x = .error d ↔ ∃ fault, x = .error fault ∧ d = .located site (.fault fault) :=
  mapError_eq_error

theorem mapM_cons_eq_error {f : α → Except ε β} {x : α} {xs : List α} {e : ε} :
    (x :: xs).mapM f = .error e ↔ f x = .error e ∨ (∃ y, f x = .ok y) ∧ xs.mapM f = .error e := by
  rw [List.mapM_cons, bind_eq_error]
  refine or_congr_right ⟨?_, ?_⟩
  · rintro ⟨y, hFirst, hRest⟩
    rcases bind_eq_error.mp hRest with hRest | ⟨ys, -, hPure⟩
    · exact ⟨⟨y, hFirst⟩, hRest⟩
    · cases hPure
  · rintro ⟨⟨y, hFirst⟩, hRest⟩
    exact ⟨y, hFirst, bind_eq_error.mpr (.inl hRest)⟩

/-- The error of a traversal is that of the first item that has one. -/
theorem mapM_eq_error {f : α → Except ε β} {xs : List α} {e : ε} (h : xs.mapM f = .error e) :
    ∃ (k : Nat) (x : α), xs[k]? = some x ∧ f x = .error e ∧
      ∀ j < k, ∀ y, xs[j]? = some y → ∃ b, f y = .ok b := by
  induction xs with
  | nil => cases h
  | cons first rest ih =>
    rcases mapM_cons_eq_error.mp h with hFirst | ⟨hFirst, hRest⟩
    · exact ⟨0, first, rfl, hFirst, fun j hj => absurd hj (Nat.not_lt_zero j)⟩
    · obtain ⟨k, x, hk, hx, hBefore⟩ := ih hRest
      refine ⟨k + 1, x, hk, hx, ?_⟩
      intro j hj y hy
      cases j with
      | zero =>
        cases hy
        exact hFirst
      | succ j => exact hBefore j (by omega) y hy

/-- A traversal that fails has the same error if it ends with the item that has it. -/
theorem exists_stop_of_mapM {f : α → Except ε β} {xs : List α} {e : ε} (h : xs.mapM f = .error e) :
    ∃ front x back, xs = front ++ x :: back ∧ f x = .error e ∧ (front ++ [x]).mapM f = .error e := by
  induction xs with
  | nil => cases h
  | cons first rest ih =>
    rcases mapM_cons_eq_error.mp h with hFirst | ⟨hFirst, hRest⟩
    · exact ⟨[], first, rest, rfl, hFirst, mapM_cons_eq_error.mpr (.inl hFirst)⟩
    · obtain ⟨front, x, back, rfl, hx, hStop⟩ := ih hRest
      exact ⟨first :: front, x, back, rfl, hx, mapM_cons_eq_error.mpr (.inr ⟨hFirst, hStop⟩)⟩

theorem exists_stop_of_foldlM {step : σ → α → Except ε σ} {start : σ} {xs : List α} {e : ε}
    (h : xs.foldlM step start = .error e) :
    ∃ front x back now, xs = front ++ x :: back ∧ step now x = .error e ∧
      (front ++ [x]).foldlM step start = .error e := by
  induction xs generalizing start with
  | nil => cases h
  | cons first rest ih =>
    rw [List.foldlM_cons, bind_eq_error] at h
    rcases h with hFirst | ⟨next, hFirst, hRest⟩
    · refine ⟨[], first, rest, start, rfl, hFirst, ?_⟩
      rw [List.nil_append, List.foldlM_cons, hFirst]
      rfl
    · obtain ⟨front, x, back, now, rfl, hx, hStop⟩ := ih hRest
      refine ⟨first :: front, x, back, now, rfl, hx, ?_⟩
      rw [List.cons_append, List.foldlM_cons]
      exact bind_eq_error.mpr (.inr ⟨next, hFirst, hStop⟩)

/-- A relation between the items so far and the state, kept by every step that ends well, holds of a
whole run. -/
theorem foldlM_invariant {step : σ → α → Except ε σ} {start final : σ} {xs : List α}
    (Holds : List α → σ → Prop) (hStart : Holds [] start)
    (hStep : ∀ before x s s', Holds before s → step s x = .ok s' → Holds (before ++ [x]) s')
    (hRun : xs.foldlM step start = .ok final) : Holds xs final := by
  induction xs using List.reverseRecOn generalizing final with
  | nil => exact pure_eq_ok.mp hRun ▸ hStart
  | append_singleton before x ih =>
    rw [List.foldlM_append] at hRun
    obtain ⟨s, hBefore, hLast⟩ := bind_eq_ok.mp hRun
    rw [List.foldlM_cons] at hLast
    obtain ⟨s', hLast, hFinal⟩ := bind_eq_ok.mp hLast
    rw [← pure_eq_ok.mp hFinal]
    exact hStep before x s s' (ih hBefore) hLast

/-- The result with its value and its error renamed. -/
def carry (g : ε → ε') (r : α → β) : Except ε α → Except ε' β
  | .ok a => .ok (r a)
  | .error e => .error (g e)

theorem carry_id (g : ε → ε') (x : Except ε α) : carry g id x = x.mapError g := by
  cases x <;> rfl

theorem carry_bind {g : ε → ε'} {r : α → α'} {r' : β → β'} {f : α → Except ε β} {f' : α' → Except ε' β'}
    (h : ∀ a, f' (r a) = carry g r' (f a)) (x : Except ε α) :
    (carry g r x >>= f') = carry g r' (x >>= f) := by
  cases x with
  | ok a => exact h a
  | error e => rfl

theorem mapM_carry {g : ε → ε'} {r : β → β'} {f : α → Except ε β} {f' : α → Except ε' β'}
    (h : ∀ x, f' x = carry g r (f x)) (xs : List α) : xs.mapM f' = carry g (List.map r) (xs.mapM f) := by
  induction xs with
  | nil => rfl
  | cons x xs ih =>
    rw [List.mapM_cons, List.mapM_cons, h, ih]
    refine carry_bind (fun b => ?_) (f x)
    cases xs.mapM f <;> rfl

theorem foldlM_carry {g : ε → ε'} {r : σ → τ} {step : σ → α → Except ε σ} {step' : τ → α → Except ε' τ}
    (h : ∀ s x, step' (r s) x = carry g r (step s x)) (xs : List α) (start : σ) :
    xs.foldlM step' (r start) = carry g r (xs.foldlM step start) := by
  induction xs generalizing start with
  | nil => rfl
  | cons x xs ih =>
    rw [List.foldlM_cons, List.foldlM_cons, h]
    exact carry_bind ih (step start x)

/-- Every error of the result satisfies `P`. -/
def FailsOnly (P : ε → Prop) (x : Except ε α) : Prop := ∀ e, x = .error e → P e

namespace FailsOnly

variable {P : ε → Prop}

theorem ok (a : α) : FailsOnly P (.ok a) := nofun

theorem error {e : ε} (h : P e) : FailsOnly P (.error e : Except ε α) := by
  rintro _ ⟨⟩
  exact h

theorem bind {x : Except ε α} {f : α → Except ε β} (hx : FailsOnly P x)
    (hf : ∀ a, x = .ok a → FailsOnly P (f a)) : FailsOnly P (x >>= f) := by
  intro e h
  rcases bind_eq_error.mp h with hFirst | ⟨a, hFirst, hRest⟩
  · exact hx e hFirst
  · exact hf a hFirst e hRest

theorem map {x : Except ε α} (hx : FailsOnly P x) (f : α → β) : FailsOnly P (x.map f) := by
  cases x with
  | error e => exact error (hx e rfl)
  | ok a => exact ok (f a)

theorem mapM {f : α → Except ε β} {xs : List α} (hf : ∀ x, FailsOnly P (f x)) :
    FailsOnly P (xs.mapM f) := by
  intro e h
  obtain ⟨k, x, -, hx, -⟩ := mapM_eq_error h
  exact hf x e hx

theorem foldlM {step : σ → α → Except ε σ} (hStep : ∀ s x, FailsOnly P (step s x)) (xs : List α)
    (start : σ) : FailsOnly P (xs.foldlM step start) := by
  induction xs generalizing start with
  | nil => exact ok start
  | cons x xs ih => exact bind (hStep start x) fun next _ => ih next

theorem locate {Q : Fault → Prop} {x : Except Fault α} (hx : FailsOnly Q x) (site : Site) :
    FailsOnly (fun d => Q d.kind) (Diagnostic.locate site x) := by
  intro d h
  obtain ⟨fault, hFault, rfl⟩ := locate_eq_error.mp h
  exact hx fault hFault

end FailsOnly

end MipsAsm.Outcome
