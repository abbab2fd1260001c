import Mathlib.Data.List.Basic
import Mathlib.Data.List.Induction
import Mathlib.Order.Lattice

/-!
# Maps with sorted keys

A finite map as its entries in ascending order of keys, so that two maps with the
same bindings are equal and iteration goes in order.  `lookup` decides what a map
is (`ext_lookup`), and each operation has its lemma about `lookup`.
-/

/-- The entries of a map, in ascending order of keys. -/
structure SortedMap (κ ν : Type) [LinearOrder κ] where
  entries : List (κ × ν)
  sorted : entries.Pairwise fun a b => a.1 < b.1

namespace SortedMap

variable {κ ν μ : Type} [LinearOrder κ]

instance [DecidableEq ν] : DecidableEq (SortedMap κ ν) := fun a b =>
  decidable_of_iff (a.entries = b.entries) ⟨fun h => by cases a; cases b; cases h; rfl, fun h => h ▸ rfl⟩

def empty : SortedMap κ ν := ⟨[], .nil⟩

def lookup (m : SortedMap κ ν) (k : κ) : Option ν := m.entries.lookup k

def contains (m : SortedMap κ ν) (k : κ) : Bool := (m.lookup k).isSome

def keys (m : SortedMap κ ν) : List κ := m.entries.map (·.1)

/-! ## Insertion -/

def insertEntry (k : κ) (v : ν) : List (κ × ν) → List (κ × ν)
  | [] => [(k, v)]
  | entry :: rest =>
    if k < entry.1 then (k, v) :: entry :: rest
    else if k = entry.1 then (k, v) :: rest
    else entry :: insertEntry k v rest

theorem mem_insertEntry {k : κ} {v : ν} {entries : List (κ × ν)} {e : κ × ν}
    (h : e ∈ insertEntry k v entries) : e = (k, v) ∨ e ∈ entries := by
  induction entries with
  | nil => exact .inl (List.mem_singleton.mp h)
  | cons entry rest ih =>
    unfold insertEntry at h
    split at h
    · exact List.mem_cons.mp h
    · split at h
      · exact (List.mem_cons.mp h).imp_right (.tail _)
      · rcases List.mem_cons.mp h with rfl | h
        · exact .inr List.mem_cons_self
        · exact (ih h).imp_right (.tail _)

theorem sorted_insertEntry {k : κ} {v : ν} {entries : List (κ × ν)}
    (h : entries.Pairwise fun a b => a.1 < b.1) :
    (insertEntry k v entries).Pairwise fun a b => a.1 < b.1 := by
  induction entries with
  | nil => exact List.pairwise_singleton _ _
  | cons entry rest ih =>
    obtain ⟨hentry, hrest⟩ := List.pairwise_cons.mp h
    unfold insertEntry
    split
    · next hlt =>
      refine List.pairwise_cons.mpr ⟨fun e he => ?_, h⟩
      rcases List.mem_cons.mp he with rfl | he
      · exact hlt
      · exact lt_trans hlt (hentry e he)
    · next hge =>
      split
      · next heq =>
        exact List.pairwise_cons.mpr ⟨fun e he => heq ▸ hentry e he, hrest⟩
      · next hne =>
        refine List.pairwise_cons.mpr ⟨fun e he => ?_, ih hrest⟩
        rcases mem_insertEntry he with rfl | he
        · exact lt_of_le_of_ne (not_lt.mp hge) (Ne.symm hne)
        · exact hentry e he

/-- Binds a key, in place of what it was bound to. -/
def insert (m : SortedMap κ ν) (k : κ) (v : ν) : SortedMap κ ν :=
  ⟨insertEntry k v m.entries, sorted_insertEntry m.sorted⟩

/-- The bindings of a list.  A later one replaces an earlier one. -/
def ofList (bindings : List (κ × ν)) : SortedMap κ ν :=
  bindings.foldl (fun m b => m.insert b.1 b.2) empty

/-! ## Restriction -/

/-- The bindings that satisfy `p`. -/
def filter (m : SortedMap κ ν) (p : κ → ν → Bool) : SortedMap κ ν :=
  ⟨m.entries.filter fun e => p e.1 e.2, m.sorted.filter _⟩

/-- The same keys with other values. -/
def map (m : SortedMap κ ν) (f : κ → ν → μ) : SortedMap κ μ :=
  ⟨m.entries.map fun e => (e.1, f e.1 e.2), List.pairwise_map.mpr m.sorted⟩

/-! ## What a map is -/

@[simp] theorem lookup_empty (k : κ) : (empty : SortedMap κ ν).lookup k = none := rfl

theorem lookup_eq_some_iff {m : SortedMap κ ν} {k : κ} {v : ν} :
    m.lookup k = some v ↔ (k, v) ∈ m.entries := by
  obtain ⟨entries, hsorted⟩ := m
  show entries.lookup k = some v ↔ (k, v) ∈ entries
  induction entries with
  | nil => simp
  | cons entry rest ih =>
    obtain ⟨hentry, hrest⟩ := List.pairwise_cons.mp hsorted
    obtain ⟨k', v'⟩ := entry
    by_cases hk : k = k'
    · subst hk
      rw [List.lookup_cons_self, Option.some.injEq, List.mem_cons]
      refine ⟨fun h => .inl (h ▸ rfl), fun h => ?_⟩
      rcases h with h | h
      · exact (Prod.mk.inj h).2.symm
      · exact absurd (hentry _ h) (lt_irrefl _)
    · have hbeq : (k == k') = false := beq_eq_false_iff_ne.mpr hk
      rw [List.lookup_cons, hbeq, List.mem_cons]
      exact (ih hrest).trans ⟨.inr, fun h => h.resolve_left fun heq => hk (Prod.mk.inj heq).1⟩

theorem lookup_insert (m : SortedMap κ ν) (k k' : κ) (v : ν) :
    (m.insert k v).lookup k' = if k' = k then some v else m.lookup k' := by
  obtain ⟨entries, hsorted⟩ := m
  show (insertEntry k v entries).lookup k' = if k' = k then some v else entries.lookup k'
  induction entries with
  | nil =>
    by_cases hk : k' = k
    · subst hk
      simp [insertEntry]
    · rw [if_neg hk, insertEntry, List.lookup_cons, beq_eq_false_iff_ne.mpr hk]
  | cons entry rest ih =>
    obtain ⟨-, hrest⟩ := List.pairwise_cons.mp hsorted
    obtain ⟨k₀, v₀⟩ := entry
    by_cases hk : k' = k
    · subst hk
      rw [if_pos rfl]
      unfold insertEntry
      split
      · exact List.lookup_cons_self
      · split
        · exact List.lookup_cons_self
        · next hne =>
          rw [List.lookup_cons, beq_eq_false_iff_ne.mpr hne]
          simpa using ih hrest
    · rw [if_neg hk]
      have hbeq : (k' == k) = false := beq_eq_false_iff_ne.mpr hk
      unfold insertEntry
      split
      · rw [List.lookup_cons, hbeq]
      · split
        · next heq =>
          replace heq : k = k₀ := heq
          subst heq
          rw [List.lookup_cons, List.lookup_cons, hbeq]
        · rw [List.lookup_cons, List.lookup_cons, ih hrest, if_neg hk]

theorem lookup_filter (m : SortedMap κ ν) (p : κ → ν → Bool) (k : κ) :
    (m.filter p).lookup k = (m.lookup k).filter (p k) := by
  cases h : m.lookup k with
  | none =>
    rw [Option.filter_none, Option.eq_none_iff_forall_not_mem]
    intro v hv
    have hmem := List.mem_filter.mp (lookup_eq_some_iff.mp hv)
    rw [lookup_eq_some_iff.mpr hmem.1] at h
    cases h
  | some v =>
    have hmem := lookup_eq_some_iff.mp h
    cases hp : p k v with
    | true =>
      rw [Option.filter_some_pos hp]
      exact lookup_eq_some_iff.mpr (List.mem_filter.mpr ⟨hmem, hp⟩)
    | false =>
      rw [Option.filter_some_neg (by simp [hp]), Option.eq_none_iff_forall_not_mem]
      intro v' hv'
      obtain ⟨hmem', hp'⟩ := List.mem_filter.mp (lookup_eq_some_iff.mp hv')
      have heq := lookup_eq_some_iff.mpr hmem'
      rw [h] at heq
      cases heq
      rw [hp] at hp'
      cases hp'

theorem lookup_map (m : SortedMap κ ν) (f : κ → ν → μ) (k : κ) :
    (m.map f).lookup k = (m.lookup k).map (f k) := by
  obtain ⟨entries, hsorted⟩ := m
  show (entries.map _).lookup k = (entries.lookup k).map (f k)
  clear hsorted
  induction entries with
  | nil => rfl
  | cons entry rest ih =>
    obtain ⟨k', v'⟩ := entry
    rw [List.map_cons, List.lookup_cons, List.lookup_cons]
    by_cases hk : k = k'
    · subst hk
      simp
    · rw [beq_eq_false_iff_ne.mpr hk]
      exact ih

/-- When bindings of one key agree, their order does not matter. -/
theorem lookup_ofList_iff {bindings : List (κ × ν)} {k : κ} {v : ν}
    (h : ∀ a ∈ bindings, ∀ b ∈ bindings, a.1 = b.1 → a.2 = b.2) :
    (ofList bindings).lookup k = some v ↔ (k, v) ∈ bindings := by
  induction bindings using List.reverseRecOn with
  | nil => simp [ofList]
  | append_singleton bindings b ih =>
    have hlast : ofList (bindings ++ [b]) = (ofList bindings).insert b.1 b.2 := by
      simp [ofList]
    have hfirst := ih fun a ha b hb =>
      h a (List.mem_append_left _ ha) b (List.mem_append_left _ hb)
    rw [hlast, lookup_insert, List.mem_append, List.mem_singleton]
    by_cases hk : k = b.1
    · rw [if_pos hk, Option.some.injEq]
      constructor
      · rintro rfl
        exact .inr (Prod.ext hk rfl)
      · rintro (hmem | heq)
        · exact (h _ (List.mem_append_left _ hmem) b (by simp) hk).symm
        · rw [← heq]
    · rw [if_neg hk, hfirst]
      refine (or_iff_left ?_).symm
      rintro rfl
      exact hk rfl

/-- The last binding of a key holds. -/
theorem lookup_ofList_eq_some_iff {bindings : List (κ × ν)} {k : κ} {v : ν} :
    (ofList bindings).lookup k = some v ↔ ∃ before after, bindings = before ++ (k, v) :: after ∧
      ∀ later ∈ after, later.1 ≠ k := by
  induction bindings using List.reverseRecOn with
  | nil => simp [ofList]
  | append_singleton bindings b ih =>
    have hlast : ofList (bindings ++ [b]) = (ofList bindings).insert b.1 b.2 := by
      simp [ofList]
    rw [hlast, lookup_insert]
    by_cases hk : k = b.1
    · rw [if_pos hk, Option.some.injEq]
      constructor
      · rintro rfl
        exact ⟨bindings, [], by rw [hk], nofun⟩
      · rintro ⟨before, after, heq, hlater⟩
        rcases List.eq_nil_or_concat after with rfl | ⟨init, last, rfl⟩
        · exact congrArg Prod.snd (List.append_inj_right' heq rfl |> List.singleton_inj.mp)
        · rw [List.concat_eq_append, ← List.cons_append, ← List.append_assoc] at heq
          have hb : b = last := List.singleton_inj.mp (List.append_inj_right' heq rfl)
          exact absurd (hb ▸ hk).symm (hlater last (by simp))
    · rw [if_neg hk, ih]
      constructor
      · rintro ⟨before, after, rfl, hlater⟩
        refine ⟨before, after ++ [b], by simp, fun later hmem => ?_⟩
        rcases List.mem_append.mp hmem with hmem | hmem
        · exact hlater later hmem
        · cases List.mem_singleton.mp hmem
          exact Ne.symm hk
      · rintro ⟨before, after, heq, hlater⟩
        rcases List.eq_nil_or_concat after with rfl | ⟨init, last, rfl⟩
        · have hb : b = (k, v) := List.singleton_inj.mp (List.append_inj_right' heq rfl)
          exact absurd (congrArg Prod.fst hb).symm hk
        · rw [List.concat_eq_append, ← List.cons_append, ← List.append_assoc] at heq
          refine ⟨before, init, List.append_inj_left' heq rfl, fun later hmem => hlater later ?_⟩
          rw [List.concat_eq_append]
          exact List.mem_append_left _ hmem

/-- A key is bound to a value. -/
theorem mem_keys {m : SortedMap κ ν} {k : κ} : k ∈ m.keys ↔ m.contains k = true := by
  unfold keys contains
  rw [Option.isSome_iff_exists]
  constructor
  · intro h
    obtain ⟨e, he, rfl⟩ := List.mem_map.mp h
    exact ⟨e.2, lookup_eq_some_iff.mpr he⟩
  · rintro ⟨v, hv⟩
    exact List.mem_map.mpr ⟨(k, v), lookup_eq_some_iff.mp hv, rfl⟩

/-- The keys of a map are those of its bindings. -/
theorem mem_keys_ofList {bindings : List (κ × ν)} {k : κ} :
    k ∈ (ofList bindings).keys ↔ k ∈ bindings.map (·.1) := by
  rw [mem_keys, contains]
  induction bindings using List.reverseRecOn with
  | nil => simp [ofList]
  | append_singleton bindings b ih =>
    have hlast : ofList (bindings ++ [b]) = (ofList bindings).insert b.1 b.2 := by
      simp [ofList]
    rw [hlast, lookup_insert, List.map_append, List.mem_append, ← ih, List.map_singleton,
      List.mem_singleton]
    by_cases hk : k = b.1
    · simp [hk]
    · simp [hk]

theorem nodup_keys (m : SortedMap κ ν) : m.keys.Nodup :=
  (List.pairwise_map.mpr m.sorted).imp fun hlt => ne_of_lt hlt

/-- A new key is added to the bindings. -/
theorem perm_insert {m : SortedMap κ ν} {k : κ} (v : ν) (h : m.contains k = false) :
    (m.insert k v).entries.Perm ((k, v) :: m.entries) := by
  have hnew : ∀ e ∈ m.entries, k ≠ e.1 := by
    rintro e he rfl
    rw [contains, lookup_eq_some_iff.mpr he] at h
    cases h
  show (insertEntry k v m.entries).Perm ((k, v) :: m.entries)
  generalize m.entries = entries at hnew
  induction entries with
  | nil => exact .refl _
  | cons entry rest ih =>
    unfold insertEntry
    split
    · exact .refl _
    · rw [if_neg (hnew entry List.mem_cons_self)]
      exact ((ih fun e he => hnew e (.tail _ he)).cons entry).trans (.swap _ _ _)

/-- Maps with the same bindings are equal. -/
theorem ext_lookup {m m' : SortedMap κ ν} (h : ∀ k, m.lookup k = m'.lookup k) : m = m' := by
  have hmem : ∀ e, e ∈ m.entries ↔ e ∈ m'.entries := fun e => by
    rw [← lookup_eq_some_iff, ← lookup_eq_some_iff, h]
  obtain ⟨l, hl⟩ := m
  obtain ⟨l', hl'⟩ := m'
  have hanti : ∀ a b, a ∈ l → b ∈ l' → a.1 < b.1 → b.1 < a.1 → a = b :=
    fun a b _ _ hab hba => absurd (lt_trans hab hba) (lt_irrefl _)
  have hnodup : ∀ {l : List (κ × ν)}, (l.Pairwise fun a b => a.1 < b.1) → l.Nodup :=
    fun hl => hl.imp fun {a b} (hab : a.1 < b.1) heq => lt_irrefl b.1 (heq ▸ hab)
  have hperm : l.Perm l' := (List.perm_ext_iff_of_nodup (hnodup hl) (hnodup hl')).mpr hmem
  congr
  exact hperm.eq_of_pairwise hanti hl hl'

/-- Finitely many keys may be bound to anything. -/
theorem exists_lookup (keys : List κ) (f : κ → Option ν) :
    ∃ m : SortedMap κ ν, ∀ k ∈ keys, m.lookup k = f k := by
  induction keys with
  | nil => exact ⟨empty, fun _ hmem => by cases hmem⟩
  | cons key keys ih =>
    obtain ⟨m, hm⟩ := ih
    cases hvalue : f key with
    | none =>
      refine ⟨m.filter fun k _ => k ≠ key, fun k hk => ?_⟩
      rw [lookup_filter]
      by_cases hkey : k = key
      · simp [hkey, hvalue]
      · rw [hm k ((List.mem_cons.mp hk).resolve_left hkey)]
        cases f k with
        | none => rfl
        | some v => simp [hkey]
    | some v =>
      refine ⟨m.insert key v, fun k hk => ?_⟩
      rw [lookup_insert]
      by_cases hkey : k = key
      · rw [if_pos hkey, hkey, hvalue]
      · rw [if_neg hkey, hm k ((List.mem_cons.mp hk).resolve_left hkey)]

/-- A map is read back from its bindings. -/
theorem ofList_entries (m : SortedMap κ ν) : ofList m.entries = m := by
  refine ext_lookup fun k => Option.ext fun v => ?_
  rw [lookup_ofList_iff, lookup_eq_some_iff]
  intro a ha b hb hkey
  have hlookup := lookup_eq_some_iff.mpr ha
  rw [hkey, lookup_eq_some_iff.mpr hb] at hlookup
  exact (Option.some.inj hlookup).symm

end SortedMap
