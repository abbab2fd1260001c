import Mathlib.Data.List.Basic
import Mathlib.Data.List.Nodup

/-!
# Recency

A history of values, newest first.  `recents` has each value once, where it was used last, and
`others` leaves out the newest one: what was used before the value in use, most recent first.
-/

namespace Recency

section
variable {α : Type} [DecidableEq α]

/-- The values of a history, each where it was used last. -/
def recents : List α → List α
  | [] => []
  | a :: history => a :: (recents history).erase a

/-- The recent values other than the newest. -/
def others (history : List α) : List α := (recents history).tail

theorem nodup_recents (history : List α) : (recents history).Nodup := by
  induction history with
  | nil => exact List.nodup_nil
  | cons a history ih => exact List.nodup_cons.mpr ⟨ih.not_mem_erase, ih.erase a⟩

theorem nodup_others (history : List α) : (others history).Nodup :=
  (nodup_recents history).sublist (List.tail_sublist _)

theorem newest_not_mem_others (a : α) (history : List α) : a ∉ others (a :: history) :=
  (nodup_recents history).not_mem_erase

/-- The newest value is used again. -/
theorem others_again (a : α) (history : List α) : others (a :: a :: history) = others (a :: history) :=
  List.erase_cons_head a _

/-- Another value is used. -/
theorem others_switch (a b : α) (history : List α) :
    others (a :: b :: history) = (b :: others (b :: history)).erase a := rfl

theorem take_erase {a : α} {values : List α} {n : Nat} (h : a ∉ values.take n) :
    (values.erase a).take n = values.take n := by
  induction values generalizing n with
  | nil => rfl
  | cons b values ih =>
    cases n with
    | zero => rfl
    | succ n =>
      rw [List.take_succ_cons, List.mem_cons, not_or] at h
      rw [List.erase_cons_tail (by simpa using Ne.symm h.1), List.take_succ_cons,
        List.take_succ_cons, ih h.2]

end

end Recency
