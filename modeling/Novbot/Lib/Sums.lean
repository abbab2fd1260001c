import Mathlib.Algebra.Group.Int.Defs
import Mathlib.Algebra.Order.BigOperators.Group.List
import Mathlib.Algebra.Order.Group.Nat
import Mathlib.Algebra.Ring.Nat
import Mathlib.Data.List.Nodup

/-!
# Sums over lists

Bounds of one sum by another: over distinct elements of a list (`sum_le_of_subset`), and over
elements that each pay with those of their key (`sum_le_of_keys`).
-/

namespace Sums

variable {α β κ : Type}

theorem sum_filter_add (p : α → Bool) (f : α → Nat) (l : List α) :
    ((l.filter p).map f).sum + ((l.filter fun a => !p a).map f).sum = (l.map f).sum := by
  induction l with
  | nil => rfl
  | cons a l ih =>
    cases hp : p a with
    | true => simp [hp, ← ih, Nat.add_assoc]
    | false =>
      simp only [List.filter_cons, hp, Bool.not_false, if_true, Bool.false_eq_true, if_false,
        List.map_cons, List.sum_cons]
      omega

/-- Distinct elements of a list add up to less. -/
theorem sum_le_of_subset {l l' : List α} (hnodup : l.Nodup) (h : l ⊆ l') (f : α → Nat) :
    (l.map f).sum ≤ (l'.map f).sum := by
  obtain ⟨sub, hperm, hsub⟩ := List.subperm_of_subset hnodup h
  rw [← (hperm.map f).sum_eq]
  exact (hsub.map f).sum_le_sum fun _ _ => Nat.zero_le _

theorem sum_flatMap (f : β → Nat) (g : α → List β) (l : List α) :
    ((l.flatMap g).map f).sum = (l.map fun a => ((g a).map f).sum).sum := by
  induction l with
  | nil => rfl
  | cons a l ih => rw [List.flatMap_cons, List.map_append, List.sum_append, ih, List.map_cons,
      List.sum_cons]

/-- What one element pays more, the sum does. -/
theorem add_sum_le {f g : α → Nat} {l : List α} {a : α} {n : Nat} (ha : a ∈ l)
    (hall : ∀ b ∈ l, g b ≤ f b) (hn : n + g a ≤ f a) : n + (l.map g).sum ≤ (l.map f).sum := by
  induction l with
  | nil => cases ha
  | cons b l ih =>
    obtain ⟨hb, hrest⟩ := List.forall_mem_cons.mp hall
    rw [List.map_cons, List.map_cons, List.sum_cons, List.sum_cons]
    rcases List.mem_cons.mp ha with rfl | ha
    · have hle : (l.map g).sum ≤ (l.map f).sum := List.sum_le_sum hrest
      omega
    · have hle := ih ha hrest
      omega

/-- Elements with different keys, each below the sum over its key. -/
theorem sum_le_of_keys [DecidableEq κ] {keyA : α → κ} {keyB : β → κ} {f : α → Nat} {g : β → Nat}
    {as : List α} {bs : List β} (hnodup : (as.map keyA).Nodup)
    (h : ∀ a ∈ as, f a ≤ ((bs.filter fun b => keyB b = keyA a).map g).sum) :
    (as.map f).sum ≤ (bs.map g).sum := by
  induction as generalizing bs with
  | nil => exact Nat.zero_le _
  | cons a as ih =>
    obtain ⟨hfirst, hrest⟩ := List.forall_mem_cons.mp h
    obtain ⟨hnot, hnodup⟩ := List.nodup_cons.mp hnodup
    have hlater := @ih (bs.filter fun b => !decide (keyB b = keyA a)) hnodup fun a' ha' => by
      have hne : keyA a' ≠ keyA a := fun heq => hnot (List.mem_map.mpr ⟨a', ha', heq⟩)
      refine (hrest a' ha').trans (le_of_eq ?_)
      rw [List.filter_filter]
      congr 2
      refine List.filter_congr fun b _ => ?_
      by_cases hb : keyB b = keyA a'
      · simp [hb, hne]
      · simp [hb]
    rw [List.map_cons, List.sum_cons, ← sum_filter_add (fun b => keyB b = keyA a) g bs]
    exact Nat.add_le_add hfirst hlater

end Sums
