import Mathlib.Data.List.Basic

/-!
# A one-slot memo keyed by a digest

A memo keeps the last result that `make` produced, under `key` of its input.
`fetch` returns the stored result when the keys agree and calls `make`
otherwise.  Nothing compares the inputs themselves, so the memo is as good as
`key` is injective on what it meets.

An entry carries the proof that it is what `make` gives on its source.  A fetch
is *own* when its result comes from the input it was asked for.  `fetch_own_iff`
says when one fetch is own, and `fetch_source` what an own fetch leaves in the
slot.  The two are the step of an induction over a sequence of fetches, in which
the slot always holds the last input that `make` accepted.
-/

namespace Memo

variable {ι κ ρ ε : Type} {key : ι → κ} {make : ι → Except ε ρ}

/-- A stored result with the input it was made from. -/
structure Entry (key : ι → κ) (make : ι → Except ε ρ) where
  /-- The key the entry is found under. -/
  digest : κ
  /-- The input the result was made from. -/
  source : ι
  result : ρ
  keyed : key source = digest
  made : make source = .ok result

abbrev Slot (key : ι → κ) (make : ι → Except ε ρ) := Option (Entry key make)

/-- Makes an entry for an input, without a look at the slot. -/
def build (key : ι → κ) (make : ι → Except ε ρ) (input : ι) : Except ε (Entry key make) :=
  match h : make input with
  | .ok result => .ok ⟨key input, input, result, rfl, h⟩
  | .error err => .error err

/-- Makes and stores an entry.  A failed `make` leaves the slot as it is. -/
def refill (slot : Slot key make) (input : ι) : Except ε (Entry key make) × Slot key make :=
  match build key make input with
  | .ok entry => (.ok entry, some entry)
  | .error err => (.error err, slot)

/-- Looks the input up by its key, and refills the slot on a miss. -/
def fetch [DecidableEq κ] (slot : Slot key make) (input : ι) :
    Except ε (Entry key make) × Slot key make :=
  match slot with
  | some entry => if entry.digest = key input then (.ok entry, slot) else refill slot input
  | none => refill slot input

/-- A fetch answers for its own input: its entry was made from the input. -/
def Own (input : ι) (answer : Except ε (Entry key make)) : Prop :=
  ∀ entry, answer = .ok entry → entry.source = input

/-- No entry of another input is stored under the key of `input`. -/
def Slot.ClearFor (slot : Slot key make) (input : ι) : Prop :=
  ∀ entry, slot = some entry → key entry.source = key input → entry.source = input

/-! ## One fetch -/

section
variable (key make)

theorem build_own (input : ι) : Own input (build key make input) := by
  unfold build
  split
  · intro entry h
    cases h
    rfl
  · intro entry h
    cases h

theorem build_error {input : ι} {err : ε} (h : build key make input = .error err) :
    make input = .error err := by
  unfold build at h
  split at h
  · cases h
  · next err' he =>
    cases h
    exact he

end

@[simp] theorem refill_fst (slot : Slot key make) (input : ι) :
    (refill slot input).1 = build key make input := by
  unfold refill
  split <;> simp [*]

/-- A fetch fails only as `make` fails on the same input. -/
theorem fetch_error [DecidableEq κ] {slot : Slot key make} {input : ι} {err : ε}
    (h : (fetch slot input).1 = .error err) : make input = .error err := by
  unfold fetch at h
  split at h
  · split at h
    · cases h
    · exact build_error key make (by simpa using h)
  · exact build_error key make (by simpa using h)

theorem fetch_own_iff [DecidableEq κ] (slot : Slot key make) (input : ι) :
    Own input (fetch slot input).1 ↔ slot.ClearFor input := by
  cases slot with
  | none =>
    refine ⟨fun _ entry h => (by cases h), fun _ => ?_⟩
    simpa [fetch] using build_own key make input
  | some entry =>
    by_cases hk : entry.digest = key input
    · have hhit : (fetch (some entry) input).1 = .ok entry := by simp [fetch, hk]
      rw [hhit]
      constructor
      · intro hown entry' he _
        cases he
        exact hown entry rfl
      · intro hclear e he
        cases he
        exact hclear entry rfl (entry.keyed.trans hk)
    · refine ⟨fun _ entry' he hk' => ?_, fun _ => ?_⟩
      · cases he
        exact absurd (entry.keyed.symm.trans hk') hk
      · simpa [fetch, hk] using build_own key make input

/-! ## The input the slot was last filled from -/

/-- The source of the stored entry. -/
def Slot.source (slot : Slot key make) : Option ι := slot.map Entry.source

/-- The input kept after a fetch of `input`, when `last` was kept before. -/
def keep (make : ι → Except ε ρ) (last : Option ι) (input : ι) : Option ι :=
  match make input with
  | .ok _ => some input
  | .error _ => last

theorem clearFor_iff (slot : Slot key make) (input : ι) :
    slot.ClearFor input ↔ ∀ b, slot.source = some b → key b = key input → b = input := by
  constructor
  · intro h b hb
    obtain ⟨entry, he, rfl⟩ := Option.map_eq_some_iff.mp hb
    exact h entry he
  · intro h entry he
    exact h entry.source (by simp [Slot.source, he])

theorem build_source (input : ι) (entry : Entry key make)
    (h : build key make input = .ok entry) : entry.source = input :=
  build_own key make input entry h

theorem refill_source (slot : Slot key make) (input : ι) :
    (refill slot input).2.source = keep make slot.source input := by
  unfold refill keep
  split
  · next entry he =>
    have hs := build_source input entry he
    have hm : make input = .ok entry.result := hs ▸ entry.made
    simp [Slot.source, hm, hs]
  · next err he =>
    rw [build_error key make he]

/-- An own fetch keeps its input exactly when `make` accepts it. -/
theorem fetch_source [DecidableEq κ] {slot : Slot key make} {input : ι} (h : slot.ClearFor input) :
    (fetch slot input).2.source = keep make slot.source input := by
  cases slot with
  | none => exact refill_source none input
  | some entry =>
    by_cases hk : entry.digest = key input
    · have hs := h entry rfl (entry.keyed.trans hk)
      have hm : make input = .ok entry.result := hs ▸ entry.made
      simp [fetch, hk, keep, hm, Slot.source, hs]
    · simpa [fetch, hk] using refill_source (some entry) input

end Memo
