import Mathlib.Algebra.Group.Nat.Defs
import Mathlib.Algebra.Order.Group.Nat
import Mathlib.Data.List.Sort
import Novbot.Lib.SortedMap

/-!
# Grouping by a key

A loop that adds each element of a list to the entry of its key builds the map `group`.  The
entry of a key is what the elements of that key, in their order, make of the first entry
(`lookup_group`), and a key has an entry if an element has it.

`tally` is such a loop that counts (`lookup_tally`).
-/

namespace SortedMap

variable {α κ ν : Type} [LinearOrder κ]

section
variable (key : α → κ) (start : ν) (add : ν → α → ν)

/-- Adds an element to the entry of its key, or to `start` where there is none. -/
def addTo (m : SortedMap κ ν) (a : α) : SortedMap κ ν :=
  m.insert (key a) (add ((m.lookup (key a)).getD start) a)

def group (l : List α) : SortedMap κ ν := l.foldl (addTo key start add) empty

/-- The elements of a key, in their order. -/
def having (l : List α) (k : κ) : List α := l.filter fun a => key a = k

end

section
variable {key : α → κ} {start : ν} {add : ν → α → ν} {l : List α} {k : κ} {v : ν}

theorem mem_having {a : α} : a ∈ having key l k ↔ a ∈ l ∧ key a = k := by
  rw [having, List.mem_filter, decide_eq_true_eq]

theorem group_concat (l : List α) (a : α) :
    group key start add (l ++ [a]) = addTo key start add (group key start add l) a := by
  rw [group, List.foldl_append]
  rfl

theorem having_concat (l : List α) (a : α) :
    having key (l ++ [a]) k = having key l k ++ if key a = k then [a] else [] := by
  rw [having, List.filter_append, List.filter_singleton]
  by_cases hk : key a = k <;> simp [having, hk]

/-- The entry of a key, with `start` for a key without one. -/
theorem getD_lookup_group (l : List α) (k : κ) :
    ((group key start add l).lookup k).getD start = (having key l k).foldl add start := by
  induction l using List.reverseRecOn with
  | nil => rfl
  | append_singleton l a ih =>
    rw [group_concat, addTo, lookup_insert, having_concat, List.foldl_append, ← ih]
    by_cases hk : k = key a
    · subst hk
      rw [if_pos rfl, if_pos rfl]
      rfl
    · rw [if_neg hk, if_neg (Ne.symm hk)]
      rfl

theorem isSome_lookup_group (l : List α) (k : κ) :
    ((group key start add l).lookup k).isSome = true ↔ ∃ a ∈ l, key a = k := by
  induction l using List.reverseRecOn with
  | nil => simp [group]
  | append_singleton l a ih =>
    rw [group_concat, addTo, lookup_insert]
    by_cases hk : k = key a
    · rw [if_pos hk]
      exact iff_of_true rfl ⟨a, by simp, hk.symm⟩
    · rw [if_neg hk, ih]
      constructor
      · rintro ⟨b, hb, hbk⟩
        exact ⟨b, List.mem_append_left _ hb, hbk⟩
      · rintro ⟨b, hb, hbk⟩
        rcases List.mem_append.mp hb with hb | hb
        · exact ⟨b, hb, hbk⟩
        · rw [List.mem_singleton.mp hb] at hbk
          exact absurd hbk.symm hk

theorem lookup_group : (group key start add l).lookup k = some v ↔
    (∃ a ∈ l, key a = k) ∧ v = (having key l k).foldl add start := by
  have hsome : ((group key start add l).lookup k).isSome = true ↔ ∃ a ∈ l, key a = k :=
    isSome_lookup_group l k
  rw [← hsome, ← getD_lookup_group l k]
  cases (group key start add l).lookup k with
  | none => simp
  | some found => simp [eq_comm]

theorem mem_group {entry : κ × ν} : entry ∈ (group key start add l).entries ↔
    (∃ a ∈ l, key a = entry.1) ∧ entry.2 = (having key l entry.1).foldl add start := by
  obtain ⟨k, v⟩ := entry
  rw [← lookup_eq_some_iff]
  exact lookup_group

end

/-- A map has one entry of a key. -/
theorem having_entries (m : SortedMap κ ν) (k : κ) :
    having Prod.fst m.entries k = ((m.lookup k).map (Prod.mk k)).toList := by
  have hmem : ∀ {entry : κ × ν}, entry ∈ having Prod.fst m.entries k ↔
      entry.1 = k ∧ m.lookup k = some entry.2 := by
    intro entry
    rw [mem_having, lookup_eq_some_iff]
    constructor
    · rintro ⟨hentry, rfl⟩
      exact ⟨rfl, hentry⟩
    · rintro ⟨rfl, hentry⟩
      exact ⟨hentry, rfl⟩
  have hsorted : (having Prod.fst m.entries k).Pairwise fun a b => a.1 < b.1 := m.sorted.filter _
  cases hfound : having Prod.fst m.entries k with
  | nil =>
    cases hlookup : m.lookup k with
    | none => rfl
    | some v =>
      have hin : (k, v) ∈ having Prod.fst m.entries k := hmem.mpr ⟨rfl, hlookup⟩
      rw [hfound] at hin
      cases hin
  | cons entry rest =>
    obtain ⟨hkey, hlookup⟩ := hmem.mp (hfound ▸ List.mem_cons_self)
    rw [hfound] at hsorted
    have hrest : rest = [] := by
      refine List.eq_nil_iff_forall_not_mem.mpr fun other hother => ?_
      have hlt := (List.pairwise_cons.mp hsorted).1 other hother
      have hsame := (hmem.mp (hfound ▸ List.mem_cons_of_mem _ hother)).1
      rw [hkey, hsame] at hlt
      exact lt_irrefl _ hlt
    rw [hrest, hlookup, ← hkey]
    rfl

/-! ## Lists of elements -/

/-- A loop that appends to a list collects the elements. -/
theorem foldl_concat {β : Type} (f : α → β) (before : List β) (l : List α) :
    l.foldl (fun found a => found ++ [f a]) before = before ++ l.map f := by
  induction l generalizing before with
  | nil => rw [List.map_nil, List.append_nil]; rfl
  | cons a l ih => rw [List.foldl_cons, ih, List.map_cons, List.append_assoc]; rfl

/-! ## Counting -/

def tally (l : List κ) : SortedMap κ Nat := group id 0 (fun count _ => count + 1) l

/-- A loop that adds one for each element. -/
theorem foldl_succ (l : List α) (count : Nat) :
    l.foldl (fun count _ => count + 1) count = count + l.length := by
  induction l generalizing count with
  | nil => rfl
  | cons a l ih => rw [List.foldl_cons, ih, List.length_cons]; omega

theorem lookup_tally (l : List κ) (k : κ) : ((tally l).lookup k).getD 0 = l.count k := by
  rw [tally, getD_lookup_group, foldl_succ, Nat.zero_add, having, List.count,
    List.countP_eq_length_filter]
  exact congrArg List.length (List.filter_congr fun a _ => rfl)

end SortedMap
