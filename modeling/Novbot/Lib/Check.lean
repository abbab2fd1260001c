import Mathlib.Data.List.Forall2

/-!
# Checks that succeed

Parsers and validators are sequences of steps in `Except`.  The lemmas here say
when such a sequence succeeds, so that a statement about a parser is taken apart
along its text, and what holds of its errors when it does not (`Errors`).
-/

namespace Check

variable {ε ε' α β γ σ : Type}

@[simp] theorem pure_eq_ok {a b : α} : (pure a : Except ε α) = .ok b ↔ a = b := by
  simp [pure, Except.pure]

@[simp] theorem throw_ne_ok {e : ε} {a : α} : (throw e : Except ε α) ≠ .ok a := by
  simp [throw, throwThe, MonadExceptOf.throw]

/-- Two steps succeed in turn. -/
@[simp] theorem bind_eq_ok {x : Except ε α} {f : α → Except ε β} {b : β} :
    (x >>= f) = .ok b ↔ ∃ a, x = .ok a ∧ f a = .ok b := by
  cases x <;> simp [bind, Except.bind]

/-- The first of two steps fails, or the second one. -/
theorem bind_eq_error {x : Except ε α} {f : α → Except ε β} {e : ε} :
    (x >>= f) = .error e ↔ x = .error e ∨ ∃ a, x = .ok a ∧ f a = .error e := by
  cases x <;> simp [bind, Except.bind]

@[simp] theorem throw_bind {e : ε} {f : α → Except ε β} :
    ((throw e : Except ε α) >>= f) = throw e := rfl

/-- A test that fails with an error, and the rest. -/
@[simp] theorem ite_throw_eq_ok {p : Prop} [Decidable p] {e : ε} {rest : Except ε α} {a : α} :
    (if p then throw e else rest) = .ok a ↔ ¬ p ∧ rest = .ok a := by
  by_cases hp : p <;> simp [hp]

@[simp] theorem mapError_eq_ok {x : Except ε α} {f : ε → ε'} {a : α} :
    x.mapError f = .ok a ↔ x = .ok a := by
  cases x <;> simp [Except.mapError]

/-- A loop that collects results succeeds element by element. -/
theorem mapM_eq_ok {f : α → Except ε β} {xs : List α} {ys : List β} :
    xs.mapM f = .ok ys ↔ List.Forall₂ (fun x y => f x = .ok y) xs ys := by
  induction xs generalizing ys with
  | nil => cases ys <;> simp
  | cons x xs ih =>
    simp only [List.mapM_cons, bind_eq_ok, pure_eq_ok]
    constructor
    · rintro ⟨y, hy, rest, hrest, rfl⟩
      exact .cons hy (ih.mp hrest)
    · rintro (_ | ⟨hy, hrest⟩)
      exact ⟨_, hy, _, ih.mpr hrest, rfl⟩

/-- A loop of checks succeeds element by element. -/
theorem forM_eq_ok {f : α → Except ε PUnit} {xs : List α} :
    xs.forM f = .ok () ↔ ∀ x ∈ xs, f x = .ok () := by
  induction xs with
  | nil => simp [List.forM, pure, Except.pure]
  | cons x xs ih =>
    show (f x >>= fun _ => xs.forM f) = _ ↔ _
    rw [bind_eq_ok, List.forall_mem_cons, ← ih]
    exact ⟨fun ⟨_, hx, hrest⟩ => ⟨hx, hrest⟩, fun ⟨hx, hrest⟩ => ⟨(), hx, hrest⟩⟩

/-- Every element has its result. -/
theorem exists_of_mem_left {r : α → β → Prop} {xs : List α} {ys : List β}
    (h : List.Forall₂ r xs ys) {x : α} (hx : x ∈ xs) : ∃ y ∈ ys, r x y := by
  induction h with
  | nil => cases hx
  | @cons a b as bs hab htail ih =>
    rcases List.mem_cons.mp hx with rfl | hx
    · exact ⟨b, List.mem_cons_self, hab⟩
    · obtain ⟨y, hy, hxy⟩ := ih hx
      exact ⟨y, .tail _ hy, hxy⟩

/-- Every result is that of an element. -/
theorem exists_of_mem_right {r : α → β → Prop} {xs : List α} {ys : List β}
    (h : List.Forall₂ r xs ys) {y : β} (hy : y ∈ ys) : ∃ x ∈ xs, r x y := by
  induction h with
  | nil => cases hy
  | @cons a b as bs hab htail ih =>
    rcases List.mem_cons.mp hy with rfl | hy
    · exact ⟨a, List.mem_cons_self, hab⟩
    · obtain ⟨x, hx, hxy⟩ := ih hy
      exact ⟨x, .tail _ hx, hxy⟩

/-- A loop over the results of another one. -/
theorem mapM_mapM_eq_ok {f : α → Except ε β} {g : β → Except ε' γ} {xs : List α} {zs : List γ} :
    (∃ ys, xs.mapM f = .ok ys ∧ ys.mapM g = .ok zs) ↔
      List.Forall₂ (fun x z => ∃ y, f x = .ok y ∧ g y = .ok z) xs zs := by
  simp only [mapM_eq_ok]
  constructor
  · rintro ⟨ys, hys, hzs⟩
    induction hys generalizing zs with
    | nil =>
      cases hzs
      exact .nil
    | cons hxy _ ih =>
      cases hzs with
      | cons hyz hzs => exact .cons ⟨_, hxy, hyz⟩ (ih hzs)
  · intro h
    induction h with
    | nil => exact ⟨[], .nil, .nil⟩
    | cons hxz _ ih =>
      obtain ⟨y, hxy, hyz⟩ := hxz
      obtain ⟨ys, hys, hzs⟩ := ih
      exact ⟨y :: ys, .cons hxy hys, .cons hyz hzs⟩

/-- Each element has a result with a property. -/
theorem exists_forall₂_iff {r : α → β → Prop} {p : β → Prop} {xs : List α} :
    (∃ ys, List.Forall₂ r xs ys ∧ ∀ y ∈ ys, p y) ↔ ∀ x ∈ xs, ∃ y, r x y ∧ p y := by
  induction xs with
  | nil => simp
  | cons x xs ih =>
    rw [List.forall_mem_cons, ← ih]
    constructor
    · rintro ⟨_, _ | ⟨hxy, hrest⟩, hall⟩
      obtain ⟨hy, hys⟩ := List.forall_mem_cons.mp hall
      exact ⟨⟨_, hxy, hy⟩, _, hrest, hys⟩
    · rintro ⟨⟨y, hxy, hy⟩, ys, hrest, hys⟩
      exact ⟨y :: ys, .cons hxy hrest, List.forall_mem_cons.mpr ⟨hy, hys⟩⟩

/-- A loop over a state whose steps succeed or not whatever the state is. -/
theorem foldlM_ok_iff {f : σ → α → Except ε σ} {p : α → Prop}
    (hf : ∀ s a, (∃ s', f s a = .ok s') ↔ p a) (xs : List α) (s : σ) :
    (∃ s', xs.foldlM f s = .ok s') ↔ ∀ x ∈ xs, p x := by
  induction xs generalizing s with
  | nil => simp
  | cons x xs ih =>
    simp only [List.foldlM_cons, bind_eq_ok, List.mem_cons, forall_eq_or_imp]
    constructor
    · rintro ⟨s', mid, hmid, hrest⟩
      exact ⟨(hf s x).mp ⟨mid, hmid⟩, (ih mid).mp ⟨s', hrest⟩⟩
    · rintro ⟨hx, hxs⟩
      obtain ⟨mid, hmid⟩ := (hf s x).mpr hx
      obtain ⟨s', hrest⟩ := (ih mid).mpr hxs
      exact ⟨s', mid, hmid, hrest⟩

/-! ## Errors -/

/-- The error, if there is one, has a property. -/
def Errors (p : ε → Prop) (x : Except ε α) : Prop := ∀ e, x = .error e → p e

variable {p : ε → Prop}

theorem Errors.ok (a : α) : Errors p (.ok a) := fun _ h => by cases h

theorem Errors.pure (a : α) : Errors p (Pure.pure a : Except ε α) := Errors.ok a

theorem Errors.error {e : ε} (h : p e) : Errors p (.error e : Except ε α) := fun _ he => by
  cases he
  exact h

theorem errors_error_iff {e : ε} : Errors p (.error e : Except ε α) ↔ p e :=
  ⟨fun h => h e rfl, Errors.error⟩

theorem Errors.bind {x : Except ε α} {f : α → Except ε β} (hx : Errors p x)
    (hf : ∀ a, Errors p (f a)) : Errors p (x >>= f) := by
  cases x with
  | error e => exact Errors.error (hx e rfl)
  | ok a => exact hf a

theorem Errors.map {x : Except ε α} (hx : Errors p x) (f : α → β) : Errors p (x.map f) := by
  cases x with
  | error e => exact Errors.error (hx e rfl)
  | ok a => exact Errors.ok (f a)

theorem Errors.mapError {x : Except ε' α} {f : ε' → ε} (h : ∀ e, p (f e)) :
    Errors p (x.mapError f) := by
  cases x with
  | error e => exact Errors.error (h e)
  | ok a => exact Errors.ok a

/-- A test that fails with an error, and the rest. -/
theorem Errors.ite {c : Prop} [Decidable c] {e : ε} {rest : Except ε α} (he : p e)
    (hrest : Errors p rest) : Errors p (if c then throw e else rest) := by
  split
  · exact .error he
  · exact hrest

theorem Errors.mapM {f : α → Except ε β} (hf : ∀ a, Errors p (f a)) (xs : List α) :
    Errors p (xs.mapM f) := by
  induction xs with
  | nil => exact Errors.pure []
  | cons x xs ih =>
    rw [List.mapM_cons]
    exact (hf x).bind fun _ => ih.bind fun _ => Errors.pure _

theorem Errors.foldlM {f : σ → α → Except ε σ} (hf : ∀ s a, Errors p (f s a)) (xs : List α)
    (s : σ) : Errors p (xs.foldlM f s) := by
  induction xs generalizing s with
  | nil => exact Errors.pure s
  | cons x xs ih =>
    rw [List.foldlM_cons]
    exact (hf s x).bind ih

theorem Errors.forM {f : α → Except ε Unit} (hf : ∀ a, Errors p (f a)) (xs : List α) :
    Errors p (xs.forM f) := by
  induction xs with
  | nil => exact Errors.pure ()
  | cons x xs ih => exact (hf x).bind fun _ => ih

end Check
