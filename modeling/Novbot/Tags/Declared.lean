import Novbot.Tags.Registered

/-!
# The declared tags of a node

`classify_declared_tags` gets the pairs of a node in the order of a hash map and sorts them by
their keys (`classify`).  What it returns is what `classifyDeclaredTags` makes of the map
(`classify_eq`), and is said here for each pair on its own: a row is there unless an earlier key
is cut to the same (`First`), and it is valid if the pair is well formed and fewer than the
limit come before it (`rowOf`).
-/

namespace Novbot.Tags

/-- The pairs of a hash map, in the order in which it iterates. -/
structure DeclaredPairs where
  entries : List (String × String)
  distinct : (entries.map (·.1)).Nodup

/-- A draft with its sort key. -/
def draft (pair : String × String) : String × StoredTag := (pair.1, classifyOne pair.1 pair.2)

def draftLe (a b : String × StoredTag) : Bool :=
  a.1 < b.1 || (a.1 == b.1 && a.2.key ≤ b.2.key)

/-- `classify_declared_tags`. -/
def classify (declared : DeclaredPairs) : List StoredTag :=
  keepFirst [] (limitValid 0 (((declared.entries.map draft).mergeSort draftLe).map (·.2)))

/-- The pairs as a map. -/
def DeclaredPairs.map (declared : DeclaredPairs) : SortedMap String String :=
  .ofList declared.entries

/-! ## Each pair on its own -/

def wellFormed (key value : String) : Bool := keyOk key && !isReservedKey key && valueOk value

/-- The well-formed pairs with smaller keys. -/
def wellFormedBefore (entries : List (String × String)) (key : String) : Nat :=
  (entries.filter fun pair => wellFormed pair.1 pair.2 && pair.1 < key).length

/-- No smaller key is cut to the same. -/
def First (entries : List (String × String)) (key : String) : Prop :=
  ∀ pair ∈ entries, pair.1 < key → cutChars pair.1 maxStoredChars ≠ cutChars key maxStoredChars

instance (entries : List (String × String)) (key : String) : Decidable (First entries key) :=
  inferInstanceAs (Decidable (∀ pair ∈ entries, pair.1 < key → _ ≠ _))

/-- The row of a pair, after so many well-formed ones. -/
def rowOf (validSeen : Nat) (pair : String × String) : StoredTag where
  key := cutChars pair.1 maxStoredChars
  value := cutChars pair.2 maxStoredChars
  source := .node
  valid := wellFormed pair.1 pair.2 && validSeen < maxNodeTags
  invalidReason :=
    if wellFormed pair.1 pair.2 then
      if validSeen < maxNodeTags then none else some "over_limit"
    else invalidReason pair.1 pair.2

theorem length_of_keyOk {key : String} (h : keyOk key = true) : key.toList.length ≤ maxTagChars := by
  rw [keyOk] at h
  cases hkey : key.toList with
  | nil => exact Nat.zero_le _
  | cons c rest =>
    rw [hkey] at h
    simp only [Bool.and_eq_true, decide_eq_true_eq] at h
    exact h.1.2

theorem invalidReason_eq_none {key value : String} :
    invalidReason key value = none ↔ wellFormed key value = true := by
  have hlong : wellFormed key value = true →
      ¬ (decide (maxTagChars < key.toList.length) || decide (maxTagChars < value.toList.length)) = true := by
    intro h
    simp only [wellFormed, valueOk, Bool.and_eq_true, decide_eq_true_eq] at h
    have hkey := length_of_keyOk h.1.1
    simp only [Bool.or_eq_true, decide_eq_true_eq]
    omega
  rw [invalidReason]
  constructor
  · intro h
    split at h
    · cases h
    · split at h
      · cases h
      · split at h
        · cases h
        · split at h
          · cases h
          · split at h
            · cases h
            · simp_all [wellFormed]
  · intro h
    have hshort := hlong h
    simp only [wellFormed, Bool.and_eq_true, Bool.not_eq_true'] at h
    have hne : value.toList ≠ [] := by
      intro hnil
      rw [valueOk, hnil] at h
      exact absurd h.2 (by decide)
    rw [if_neg hshort, if_neg (by simp [h.1.1]), if_neg (by simp [h.1.2]), if_neg hne,
      if_neg (by simp [h.2])]

section
variable {entries : List (String × String)} {pair : String × String} {key value : String}

theorem classifyOne_valid_eq (key value : String) :
    (classifyOne key value).valid = wellFormed key value := by
  rw [Bool.eq_iff_iff, ← invalidReason_eq_none]
  exact Option.isNone_iff_eq_none

/-- An invalid row says why. -/
theorem rowOf_reason (validSeen : Nat) (pair : String × String) :
    (rowOf validSeen pair).valid = true ↔ (rowOf validSeen pair).invalidReason = none := by
  rw [rowOf]
  dsimp only
  cases hwf : wellFormed pair.1 pair.2 with
  | false =>
    rw [if_neg Bool.false_ne_true, invalidReason_eq_none, hwf]
    simp
  | true =>
    by_cases hroom : validSeen < maxNodeTags <;> simp [hroom]

theorem rowOf_full {seen seen' : Nat} (h : maxNodeTags ≤ seen) (h' : maxNodeTags ≤ seen') :
    rowOf seen pair = rowOf seen' pair := by
  rw [rowOf, rowOf, decide_eq_false h.not_gt, decide_eq_false h'.not_gt, if_neg h.not_gt,
    if_neg h'.not_gt]

/-- The running count of the limit is the number of those before. -/
theorem limitValid_eq (hsorted : entries.Pairwise fun a b => a.1 < b.1) (validSeen : Nat) :
    limitValid validSeen (entries.map fun pair => classifyOne pair.1 pair.2) =
      entries.map fun pair => rowOf (validSeen + wellFormedBefore entries pair.1) pair := by
  induction entries generalizing validSeen with
  | nil => rfl
  | cons first rest ih =>
    obtain ⟨hfirst, hrest⟩ := List.pairwise_cons.mp hsorted
    have hnone : wellFormedBefore (first :: rest) first.1 = 0 := by
      rw [wellFormedBefore, List.length_eq_zero_iff, List.filter_eq_nil_iff]
      intro other hother
      rcases List.mem_cons.mp hother with rfl | hother
      · simp
      · simp [(hfirst other hother).not_gt]
    have hmore : ∀ other ∈ rest, wellFormedBefore (first :: rest) other.1 =
        (if wellFormed first.1 first.2 then 1 else 0) + wellFormedBefore rest other.1 := by
      intro other hother
      rw [wellFormedBefore, List.filter_cons]
      cases hwf : wellFormed first.1 first.2 with
      | true => simp [hfirst other hother, wellFormedBefore, Nat.add_comm]
      | false => simp [wellFormedBefore]
    have htail : ∀ seen, (∀ other ∈ rest, rowOf (seen + wellFormedBefore rest other.1) other =
        rowOf (validSeen + wellFormedBefore (first :: rest) other.1) other) →
        limitValid seen (rest.map fun pair => classifyOne pair.1 pair.2) =
          rest.map fun pair => rowOf (validSeen + wellFormedBefore (first :: rest) pair.1) pair := by
      intro seen hseen
      rw [ih hrest seen]
      exact List.map_congr_left hseen
    rw [List.map_cons, List.map_cons, limitValid, hnone, classifyOne_valid_eq]
    cases hwf : wellFormed first.1 first.2 with
    | false =>
      obtain ⟨reason, hreason⟩ := Option.ne_none_iff_exists'.mp
        fun hnone => Bool.false_ne_true (hwf.symm.trans (invalidReason_eq_none.mp hnone))
      rw [if_pos (by rfl), htail validSeen fun other hother => by simp [hmore other hother, hwf]]
      simp [rowOf, classifyOne, hwf, hreason]
    | true =>
      have hreason := invalidReason_eq_none.mpr hwf
      rw [if_neg (by simp)]
      split
      · next hfull =>
        rw [htail validSeen]
        · simp [rowOf, classifyOne, hwf, hfull.not_gt]
        · -- Beyond the limit the count is no longer kept.
          exact fun other _ => rowOf_full (by omega) (by omega)
      · next hroom =>
        rw [htail (validSeen + 1)]
        · simp [rowOf, classifyOne, hwf, hreason, not_le.mp hroom]
        · intro other hother
          rw [hmore other hother, hwf, if_pos rfl, Nat.add_assoc]

/-- The first drafts are those whose key no smaller one is cut to. -/
theorem keepFirst_eq {row : String × String → StoredTag}
    (hsorted : entries.Pairwise fun a b => a.1 < b.1)
    (hkey : ∀ pair, (row pair).key = cutChars pair.1 maxStoredChars) (seen : List String) :
    keepFirst seen (entries.map row) =
      (entries.filter fun pair =>
        cutChars pair.1 maxStoredChars ∉ seen ∧ First entries pair.1).map row := by
  induction entries generalizing seen with
  | nil => rfl
  | cons first rest ih =>
    obtain ⟨hfirst, hrest⟩ := List.pairwise_cons.mp hsorted
    have hleast : First (first :: rest) first.1 := by
      intro other hother hlt
      rcases List.mem_cons.mp hother with rfl | hother
      · exact absurd hlt (lt_irrefl _)
      · exact absurd hlt (hfirst other hother).not_gt
    have hmore : ∀ other ∈ rest, (First (first :: rest) other.1 ↔
        cutChars first.1 maxStoredChars ≠ cutChars other.1 maxStoredChars ∧
          First rest other.1) := by
      intro other hother
      rw [First, List.forall_mem_cons]
      exact and_congr_left fun _ => imp_iff_right (hfirst other hother)
    rw [List.map_cons, keepFirst, hkey]
    split
    · next hseen =>
      rw [ih hrest, List.filter_cons_of_neg (by simp [hseen])]
      congr 1
      refine List.filter_congr fun other hother => ?_
      rw [decide_eq_decide, hmore other hother]
      refine and_congr_right fun hnot => (and_iff_right fun heq => ?_).symm
      rw [← heq] at hnot
      exact hnot hseen
    · next hseen =>
      rw [ih hrest, List.filter_cons_of_pos (by simp [hseen, hleast]), List.map_cons]
      congr 2
      refine List.filter_congr fun other hother => ?_
      rw [decide_eq_decide, hmore other hother, List.mem_cons, not_or, ne_comm]
      exact ⟨fun h => ⟨h.1.2, h.1.1, h.2⟩, fun h => ⟨⟨h.2.1, h.1⟩, h.2.2⟩⟩

/-- What is classified, pair by pair. -/
theorem classifyDeclaredTags_eq (pairs : SortedMap String String) :
    classifyDeclaredTags pairs = (pairs.entries.filter fun pair => First pairs.entries pair.1).map
      fun pair => rowOf (wellFormedBefore pairs.entries pair.1) pair := by
  rw [classifyDeclaredTags, limitValid_eq pairs.sorted, keepFirst_eq pairs.sorted fun _ => rfl]
  simp

/-- No other key is cut to a well-formed one. -/
theorem first_of_wellFormed (h : wellFormed key value = true) : First entries key := by
  intro other _ hlt heq
  simp only [wellFormed, Bool.and_eq_true] at h
  have hlength := length_of_keyOk h.1.1
  have hself : cutChars key maxStoredChars = key := by
    rw [cutChars, List.take_of_length_le (hlength.trans (by decide)), String.ofList_toList]
  rw [hself] at heq
  have hcut : (cutChars other.1 maxStoredChars).toList.length ≤ maxTagChars := heq ▸ hlength
  rw [cutChars, String.toList_ofList, List.length_take] at hcut
  have hshort : other.1.toList.length ≤ maxStoredChars := by
    have hlimits : maxTagChars < maxStoredChars := by decide
    omega
  rw [cutChars, List.take_of_length_le hshort, String.ofList_toList] at heq
  exact absurd hlt (heq ▸ lt_irrefl _)

end

/-! ## The order of the map -/

section
variable {declared other : DeclaredPairs}

theorem mem_entries {declared : DeclaredPairs} {pair : String × String} :
    pair ∈ declared.map.entries ↔ pair ∈ declared.entries := by
  rw [← SortedMap.lookup_eq_some_iff (k := pair.1) (v := pair.2), DeclaredPairs.map,
    SortedMap.lookup_ofList_iff]
  intro a ha b hb hkey
  rw [List.inj_on_of_nodup_map declared.distinct ha hb hkey]

/-- The pairs are sorted by their keys. -/
theorem classify_eq (declared : DeclaredPairs) :
    classify declared = classifyDeclaredTags declared.map := by
  have hle : ∀ {a b : String × StoredTag}, draftLe a b = true ↔
      a.1 < b.1 ∨ a.1 = b.1 ∧ a.2.key ≤ b.2.key := by
    simp [draftLe]
  have hsorted := @List.pairwise_mergeSort _ draftLe
    (fun a b c hab hbc => by
      rcases hle.mp hab with hlt | ⟨heq, hkey⟩
      · rcases hle.mp hbc with hlt' | ⟨heq', -⟩
        · exact hle.mpr (.inl (hlt.trans hlt'))
        · exact hle.mpr (.inl (heq' ▸ hlt))
      · rcases hle.mp hbc with hlt' | ⟨heq', hkey'⟩
        · exact hle.mpr (.inl (heq ▸ hlt'))
        · exact hle.mpr (.inr ⟨heq.trans heq', hkey.trans hkey'⟩))
    (fun a b => by
      rw [Bool.or_eq_true, hle, hle]
      rcases lt_trichotomy a.1 b.1 with hlt | heq | hgt
      · exact .inl (.inl hlt)
      · exact (le_total a.2.key b.2.key).imp (fun h => .inr ⟨heq, h⟩) fun h => .inr ⟨heq.symm, h⟩
      · exact .inr (.inl hgt))
    (declared.entries.map draft)
  have hmap : (declared.map.entries.map draft).Pairwise fun a b => draftLe a b = true :=
    List.pairwise_map.mpr (declared.map.sorted.imp fun hlt => hle.mpr (.inl hlt))
  have hnodup : declared.map.entries.Nodup := List.Nodup.of_map _ declared.map.nodup_keys
  have hperm : declared.entries.Perm declared.map.entries :=
    (List.perm_ext_iff_of_nodup (List.Nodup.of_map _ declared.distinct) hnodup).mpr
      fun _ => mem_entries.symm
  have hsame : (declared.entries.map draft).mergeSort draftLe = declared.map.entries.map draft := by
    refine ((List.mergeSort_perm _ _).trans (hperm.map draft)).eq_of_pairwise ?_ hsorted hmap
    intro a b ha hb hab hba
    have hkey : a.1 = b.1 := by
      rcases hle.mp hab with hlt | ⟨heq, -⟩
      · rcases hle.mp hba with hgt | ⟨heq, -⟩
        · exact absurd hgt hlt.not_gt
        · exact heq.symm
      · exact heq
    obtain ⟨pair, hpair, rfl⟩ := List.mem_map.mp (List.mem_mergeSort.mp ha)
    obtain ⟨pair', hpair', rfl⟩ := List.mem_map.mp hb
    rw [List.inj_on_of_nodup_map declared.distinct hpair (mem_entries.mp hpair') hkey]
  rw [classify, hsame, List.map_map]
  rfl

/-- The order of the map does not matter. -/
theorem classify_perm (h : other.entries.Perm declared.entries) :
    classify other = classify declared := by
  have hmap : other.map = declared.map := by
    refine SortedMap.ext_lookup fun key => Option.ext fun value => ?_
    rw [SortedMap.lookup_eq_some_iff, SortedMap.lookup_eq_some_iff, mem_entries, mem_entries,
      h.mem_iff]
  rw [classify_eq, classify_eq, hmap]

end

/-- What the center keeps of declared pairs: one row for each pair whose cut key is new, the
valid ones being the first well-formed pairs up to the limit. -/
theorem classify_exact (declared : DeclaredPairs) :
    (∀ other : DeclaredPairs, other.entries.Perm declared.entries →
      classify other = classify declared) ∧
    ((classify declared).map (·.key)).Nodup ∧
    classify declared =
      (declared.map.entries.filter fun pair => First declared.map.entries pair.1).map
        (fun pair => rowOf (wellFormedBefore declared.map.entries pair.1) pair) ∧
    (∀ pair ∈ declared.entries, wellFormed pair.1 pair.2 = true →
      First declared.map.entries pair.1) ∧
    ∀ tag ∈ classify declared, tag.valid = true ↔ tag.invalidReason = none := by
  have hrows : classify declared =
      (declared.map.entries.filter fun pair => First declared.map.entries pair.1).map
        (fun pair => rowOf (wellFormedBefore declared.map.entries pair.1) pair) := by
    rw [classify_eq]
    exact classifyDeclaredTags_eq declared.map
  refine ⟨fun other hperm => classify_perm hperm, keepFirst_nodup _ _, hrows,
    fun pair _ hwf => first_of_wellFormed hwf, fun tag htag => ?_⟩
  rw [hrows] at htag
  obtain ⟨pair, -, rfl⟩ := List.mem_map.mp htag
  exact rowOf_reason _ pair

end Novbot.Tags
