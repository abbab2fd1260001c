import Novbot.Lib.Sums
import Novbot.Console.Reads

/-!
# Chips of one selector

The chips of a selector are those of its requirements, except that the console has one chip
for all the requirements of a key that ask for values (`eq` and `in`), with the values of all
of them (`Merged`).
-/

namespace Novbot.Console

open Text Tags

/-- The values that a requirement asks of a key. -/
def asked (key : String) : Requirement → List String
  | .eq other value => if other = key then [value] else []
  | .isIn other values => if other = key then values else []
  | _ => []

/-- The values that the requirements of a selector ask of a key. -/
def askedValues (reqs : List Requirement) (key : String) : List String :=
  reqs.flatMap (asked key)

/-! ## Formed chips -/

/-- The number of values that an operator takes. -/
def FilterOp.Takes (op : FilterOp) (count : Nat) : Prop :=
  match op with
  | .eq | .neq => count = 1
  | .isIn | .notIn => count ≠ 0
  | .keyExists | .not => count = 0

/-- The chips that the console makes of requirements. -/
structure Formed (chip : FilterChip) : Prop where
  key : keyOk chip.key = true
  values : ∀ value ∈ chip.values, valueOk value = true
  nodup : chip.values.Nodup
  count : chip.op.Takes chip.values.length

section
variable (localeCompare : String → String → Int)

/-- The values of a chip in order. -/
def sortedChip (chip : FilterChip) : FilterChip :=
  ⟨chip.key, chip.op, uniqueSorted localeCompare chip.values⟩

/-- What a chip requires, as its label says it. -/
def FilterChip.requirement (chip : FilterChip) : Requirement :=
  match chip.op with
  | .eq => .eq chip.key (chip.values.head?.getD "")
  | .neq => .notEq chip.key (chip.values.head?.getD "")
  | .isIn => .isIn chip.key chip.values
  | .notIn => .notIn chip.key chip.values
  | .keyExists => .keyExists chip.key
  | .not => .notExists chip.key

/-- The requirements of the canonical selector. -/
def written (chips : List FilterChip) : List Requirement :=
  ((chips.map (sortedChip localeCompare)).insertionSort fun a b => chipLe localeCompare a b).map
    fun chip => (sortedChip localeCompare chip).requirement

end

section
variable {localeCompare : String → String → Int} {chip : FilterChip} {values : List String}

theorem distinct_of_nodup {seen : List String} (h : values.Nodup)
    (hseen : ∀ value ∈ values, value ∉ seen) : distinct seen values = values := by
  induction values generalizing seen with
  | nil => rfl
  | cons value values ih =>
    obtain ⟨hnot, hnodup⟩ := List.nodup_cons.mp h
    obtain ⟨hvalue, hrest⟩ := List.forall_mem_cons.mp hseen
    rw [distinct, if_neg hvalue, ih hnodup]
    intro other hother hmem
    rcases List.mem_cons.mp hmem with rfl | hmem
    · exact hnot hother
    · exact hrest other hother hmem

theorem uniqueSorted_perm (h : values.Nodup) : (uniqueSorted localeCompare values).Perm values := by
  rw [uniqueSorted, distinct_of_nodup h fun _ _ hmem => by cases hmem]
  exact List.perm_insertionSort _ _

theorem length_uniqueSorted (h : values.Nodup) :
    (uniqueSorted localeCompare values).length = values.length := (uniqueSorted_perm h).length_eq

theorem Formed.sorted (h : Formed chip) : Formed (sortedChip localeCompare chip) := by
  refine ⟨h.key, fun value hvalue => h.values value (mem_uniqueSorted.mp hvalue),
    nodup_uniqueSorted _, ?_⟩
  have hcount := h.count
  have hlength : (uniqueSorted localeCompare chip.values).length = chip.values.length :=
    length_uniqueSorted h.nodup
  rw [← hlength] at hcount
  exact hcount

/-- Normalizing sorts the values. -/
theorem normalizeChip_formed (h : Formed chip) :
    normalizeChip localeCompare chip = some (sortedChip localeCompare chip) := by
  have hall : (uniqueSorted localeCompare chip.values).all valueOk = true :=
    List.all_eq_true.mpr h.sorted.values
  have hsorted : Formed (sortedChip localeCompare chip) := h.sorted
  have hcount := hsorted.count
  obtain ⟨key, op, values⟩ := chip
  rw [normalizeChip]
  dsimp only
  rw [trimText_key h.key, values_kept h.values, h.key]
  cases op with
  | eq => exact if_pos (And.intro hcount hall)
  | neq => exact if_pos (And.intro hcount hall)
  | isIn => exact if_pos (And.intro (fun hnil => hcount (congrArg List.length hnil)) hall)
  | notIn => exact if_pos (And.intro (fun hnil => hcount (congrArg List.length hnil)) hall)
  | keyExists =>
    have hnil : uniqueSorted localeCompare values = [] := List.length_eq_zero_iff.mp hcount
    simp [sortedChip, hnil]
  | not =>
    have hnil : uniqueSorted localeCompare values = [] := List.length_eq_zero_iff.mp hcount
    simp [sortedChip, hnil]

theorem chipLabel_formed (chip : FilterChip) :
    chipLabel localeCompare chip = (sortedChip localeCompare chip).requirement.canonical := by
  obtain ⟨key, op, values⟩ := chip
  cases op <;> rfl

theorem requirement_formed (h : Formed chip) : chip.requirement.Formed := by
  obtain ⟨key, op, values⟩ := chip
  have hkey := h.key
  have hcount := h.count
  have hone : values.length = 1 → valueOk (values.head?.getD "") = true := by
    intro hlength
    obtain ⟨value, rfl⟩ := List.length_eq_one_iff.mp hlength
    exact h.values value List.mem_cons_self
  have hset : values.length ≠ 0 → keyOk key = true ∧ values ≠ [] ∧
      ∀ value ∈ values, valueOk value = true :=
    fun hlength => ⟨hkey, fun hnil => hlength (congrArg List.length hnil), h.values⟩
  cases op with
  | eq => exact ⟨hkey, hone hcount⟩
  | neq => exact ⟨hkey, hone hcount⟩
  | isIn => exact hset hcount
  | notIn => exact hset hcount
  | keyExists => exact hkey
  | not => exact hkey

/-- The canonical selector is the text of what is written. -/
theorem canonicalSelector_formed {chips : List FilterChip} (h : ∀ chip ∈ chips, Formed chip) :
    canonicalSelector localeCompare chips =
      ",".intercalate ((written localeCompare chips).map (·.canonical)) := by
  have hnormal : chips.filterMap (normalizeChip localeCompare) =
      chips.map (sortedChip localeCompare) := by
    rw [← List.filterMap_eq_map]
    exact List.filterMap_congr fun chip hchip => normalizeChip_formed (h chip hchip)
  rw [canonicalSelector, hnormal, written, List.map_map]
  congr 1
  exact List.map_congr_left fun chip _ => chipLabel_formed chip

theorem mem_written {chips : List FilterChip} {req : Requirement} :
    req ∈ written localeCompare chips ↔ ∃ chip ∈ chips,
      (sortedChip localeCompare (sortedChip localeCompare chip)).requirement = req := by
  simp only [written, List.mem_map, List.mem_insertionSort]
  constructor
  · rintro ⟨_, ⟨chip, hchip, rfl⟩, rfl⟩
    exact ⟨chip, hchip, rfl⟩
  · rintro ⟨chip, hchip, rfl⟩
    exact ⟨_, ⟨chip, hchip, rfl⟩, rfl⟩

theorem chipOf_formed {req : Requirement} (h : req.Formed) : Formed (chipOf localeCompare req) := by
  have hone : ∀ {value : String}, valueOk value = true → ∀ other ∈ [value], valueOk other = true :=
    fun hvalue => by simpa using hvalue
  have hset : ∀ {values : List String}, values ≠ [] →
      (uniqueSorted localeCompare values).length ≠ 0 := by
    intro values hne hlength
    obtain ⟨value, rest, rfl⟩ := List.exists_cons_of_ne_nil hne
    have hmem : value ∈ uniqueSorted localeCompare (value :: rest) :=
      mem_uniqueSorted.mpr List.mem_cons_self
    rw [List.length_eq_zero_iff.mp hlength] at hmem
    cases hmem
  cases req with
  | eq key value => exact ⟨h.1, hone h.2, List.nodup_singleton value, rfl⟩
  | notEq key value => exact ⟨h.1, hone h.2, List.nodup_singleton value, rfl⟩
  | isIn key values =>
    exact ⟨h.1, fun value hvalue => h.2.2 value (mem_uniqueSorted.mp hvalue), nodup_uniqueSorted _,
      hset h.2.1⟩
  | notIn key values =>
    exact ⟨h.1, fun value hvalue => h.2.2 value (mem_uniqueSorted.mp hvalue), nodup_uniqueSorted _,
      hset h.2.1⟩
  | keyExists key => exact ⟨h, fun _ hmem => (by cases hmem), .nil, rfl⟩
  | notExists key => exact ⟨h, fun _ hmem => (by cases hmem), .nil, rfl⟩

/-! ## Merging -/

theorem merged_values {prev next : FilterChip} {value : String} :
    value ∈ (merged localeCompare prev next).values ↔ value ∈ prev.values ∨ value ∈ next.values := by
  rw [merged, mem_uniqueSorted, List.mem_append]

theorem merged_asks (prev next : FilterChip) : (merged localeCompare prev next).asks = true := by
  rw [merged, FilterChip.asks]
  dsimp only
  split <;> rfl

theorem merged_formed {prev next : FilterChip} (hprev : Formed prev) (hnext : Formed next)
    (hne : next.values ≠ []) : Formed (merged localeCompare prev next) := by
  have hvalues : ∀ value ∈ (merged localeCompare prev next).values, valueOk value = true :=
    fun value hvalue => (merged_values.mp hvalue).elim (hprev.values value) (hnext.values value)
  have hlength : (uniqueSorted localeCompare (prev.values ++ next.values)).length ≠ 0 := by
    obtain ⟨value, rest, hcons⟩ := List.exists_cons_of_ne_nil hne
    have hmem : value ∈ (merged localeCompare prev next).values :=
      merged_values.mpr (.inr (hcons ▸ List.mem_cons_self))
    exact (List.length_pos_of_mem hmem).ne'
  refine ⟨hnext.key, hvalues, nodup_uniqueSorted _, ?_⟩
  rw [merged]
  by_cases hmany : 1 < (uniqueSorted localeCompare (prev.values ++ next.values)).length
  · simp only [if_pos hmany]
    exact hlength
  · simp only [if_neg hmany]
    show (uniqueSorted localeCompare (prev.values ++ next.values)).length = 1
    omega

/-- Chips of which no two ask for values of one key. -/
structure Tidy (chips : List FilterChip) : Prop where
  formed : ∀ chip ∈ chips, Formed chip
  one : ((chips.filter (·.asks)).map (·.key)).Nodup

/-- The chips after the requirements so far. -/
structure Merged (localeCompare : String → String → Int) (reqs : List Requirement)
    (chips : List FilterChip) : Prop where
  formed : ∀ chip ∈ chips, Formed chip
  /-- One chip asks for the values of a key. -/
  one : ((chips.filter (·.asks)).map (·.key)).Nodup
  asked : ∀ key value, (∃ chip ∈ chips, chip.asks = true ∧ chip.key = key ∧ value ∈ chip.values) ↔
    value ∈ askedValues reqs key
  others : chips.filter (fun chip => !chip.asks) =
    ((reqs.map fun req => sortedChip localeCompare (chipOf localeCompare req)).filter
      fun chip => !chip.asks)
  /-- A chip with a set is there for a requirement with one. -/
  sets : ∀ chip ∈ chips, chip.op = .isIn → ∃ values, .isIn chip.key values ∈ reqs
  count : chips.length ≤ reqs.length

/-- A chip is merged or put at the end. -/
theorem mergeChip_cases (next : FilterChip) (chips : List FilterChip) :
    ((∀ item ∈ chips, item.asks = true → item.key ≠ next.key) ∧
      mergeChip localeCompare next chips = chips ++ [next]) ∨
    ∃ before item after, chips = before ++ item :: after ∧ item.key = next.key ∧
      item.asks = true ∧
      mergeChip localeCompare next chips = before ++ merged localeCompare item next :: after := by
  induction chips with
  | nil => exact .inl ⟨by simp, rfl⟩
  | cons item chips ih =>
    rw [mergeChip]
    split
    · next hsame => exact .inr ⟨[], item, chips, rfl, hsame.1, hsame.2, rfl⟩
    · next hother =>
      rcases ih with ⟨hnone, hend⟩ | ⟨before, found, after, rfl, hkey, hasks, hmerge⟩
      · refine .inl ⟨List.forall_mem_cons.mpr ⟨?_, hnone⟩, by rw [hend]; rfl⟩
        exact fun hasks hkey => hother ⟨hkey, hasks⟩
      · exact .inr ⟨item :: before, found, after, rfl, hkey, hasks, by rw [hmerge]; rfl⟩

theorem tidy_nil : Tidy [] := ⟨fun _ hmem => (by cases hmem), .nil⟩

theorem Tidy.append {chips : List FilterChip} (h : Tidy chips) (hchip : Formed chip)
    (hnew : chip.asks = true → ∀ item ∈ chips, item.asks = true → item.key ≠ chip.key) :
    Tidy (chips ++ [chip]) := by
  constructor
  · intro item hitem
    rcases List.mem_append.mp hitem with hitem | hitem
    · exact h.formed item hitem
    · rw [List.mem_singleton.mp hitem]
      exact hchip
  · rw [List.filter_append, List.map_append]
    cases hasks : chip.asks with
    | false => simpa [hasks] using h.one
    | true =>
      have hnot : chip.key ∉ (chips.filter (·.asks)).map (·.key) := by
        intro hmem
        obtain ⟨item, hitem, hkey⟩ := List.mem_map.mp hmem
        obtain ⟨hitem, hitemAsks⟩ := List.mem_filter.mp hitem
        exact hnew hasks item hitem hitemAsks hkey
      have hnodup := List.nodup_append.mpr ⟨h.one, List.nodup_singleton _, fun a ha b hb hab => by
        rw [hab, List.mem_singleton.mp hb] at ha
        exact hnot ha⟩
      simpa [hasks] using hnodup

theorem values_of_asks (h : Formed chip) (hasks : chip.asks = true) : chip.values ≠ [] := by
  intro hnil
  have hcount := h.count
  rw [FilterChip.asks, Bool.or_eq_true, beq_iff_eq, beq_iff_eq] at hasks
  rcases hasks with hop | hop <;> simp [hop, hnil, FilterOp.Takes] at hcount

theorem Tidy.merge {before after : List FilterChip} {item next : FilterChip}
    (h : Tidy (before ++ item :: after)) (hnext : Formed next) (hasks : next.asks = true)
    (hitem : item.asks = true) (hkey : item.key = next.key) :
    Tidy (before ++ merged localeCompare item next :: after) := by
  have hmergedAsks := @merged_asks localeCompare item next
  constructor
  · intro chip hchip
    rcases List.mem_append.mp hchip with hchip | hchip
    · exact h.formed chip (List.mem_append_left _ hchip)
    · rcases List.mem_cons.mp hchip with rfl | hchip
      · exact merged_formed (h.formed item (by simp)) hnext (values_of_asks hnext hasks)
      · exact h.formed chip (List.mem_append_right _ (.tail _ hchip))
  · have hone := h.one
    simp only [List.filter_append, List.filter_cons, hitem, hmergedAsks, if_true, List.map_append,
      List.map_cons] at hone ⊢
    rwa [hkey] at hone

/-- Adding a chip leaves one chip that asks for values of a key. -/
theorem Tidy.add {chips : List FilterChip} (h : Tidy chips) (hchip : Formed chip) :
    Tidy (addChip localeCompare chips chip) := by
  rw [addChip, normalizeChip_formed hchip]
  dsimp only
  have hsorted : Formed (sortedChip localeCompare chip) := hchip.sorted
  split
  · next hasks =>
    rcases @mergeChip_cases localeCompare (sortedChip localeCompare chip) chips with
      ⟨hnone, hend⟩ | ⟨before, item, after, rfl, hkey, hitem, hmerge⟩
    · rw [hend]
      exact h.append hsorted fun _ => hnone
    · rw [hmerge]
      exact h.merge hsorted hasks hitem hkey
  · next hasks => exact h.append hsorted fun hyes => absurd hyes hasks

/-- The chip that the console adds for a requirement. -/
def added (localeCompare : String → String → Int) (req : Requirement) : FilterChip :=
  sortedChip localeCompare (chipOf localeCompare req)

theorem addChip_eq {req : Requirement} (h : req.Formed) (chips : List FilterChip) :
    addChip localeCompare chips (chipOf localeCompare req) =
      if (added localeCompare req).asks then mergeChip localeCompare (added localeCompare req) chips
      else chips ++ [added localeCompare req] := by
  rw [addChip, normalizeChip_formed (chipOf_formed h)]
  rfl

/-- The values of an added chip that asks are those that its requirement asks for. -/
theorem mem_asked (localeCompare : String → String → Int) {req : Requirement} {key value : String} :
    value ∈ asked key req ↔ (added localeCompare req).asks = true ∧
      (added localeCompare req).key = key ∧ value ∈ (added localeCompare req).values := by
  have hsorted : value ∈ (added localeCompare req).values ↔
      value ∈ (chipOf localeCompare req).values := mem_uniqueSorted
  rw [hsorted]
  cases req with
  | eq other asked =>
    rw [Console.asked]
    split
    · next hkey => simp [added, sortedChip, chipOf, FilterChip.asks, hkey]
    · next hkey => simp [added, sortedChip, chipOf, FilterChip.asks, hkey]
  | isIn other values =>
    rw [Console.asked]
    split
    · next hkey => simp [added, sortedChip, chipOf, FilterChip.asks, hkey, mem_uniqueSorted]
    · next hkey => simp [added, sortedChip, chipOf, FilterChip.asks, hkey]
  | notEq other value => simp [asked, added, sortedChip, chipOf, FilterChip.asks]
  | notIn other values => simp [asked, added, sortedChip, chipOf, FilterChip.asks]
  | keyExists other => simp [asked, added, sortedChip, chipOf, FilterChip.asks]
  | notExists other => simp [asked, added, sortedChip, chipOf, FilterChip.asks]

theorem isIn_of_added {req : Requirement} (h : (added localeCompare req).op = .isIn) :
    ∃ values, req = .isIn (added localeCompare req).key values := by
  cases req with
  | isIn key values => exact ⟨values, rfl⟩
  | _ => cases h

section
variable {reqs : List Requirement} {req : Requirement} {chips : List FilterChip}

theorem Merged.tidy (h : Merged localeCompare reqs chips) : Tidy chips := ⟨h.formed, h.one⟩

theorem Merged.append (h : Merged localeCompare reqs chips) (hreq : req.Formed)
    (hnew : (added localeCompare req).asks = true →
      ∀ item ∈ chips, item.asks = true → item.key ≠ (added localeCompare req).key) :
    Merged localeCompare (reqs ++ [req]) (chips ++ [added localeCompare req]) := by
  have htidy := h.tidy.append (chipOf_formed hreq).sorted hnew
  refine ⟨htidy.formed, htidy.one, ?_, ?_, ?_, ?_⟩
  · intro key value
    rw [askedValues, List.flatMap_append, List.mem_append, ← askedValues, ← h.asked,
      List.flatMap_singleton, mem_asked localeCompare]
    simp only [List.mem_append, List.mem_singleton]
    constructor
    · rintro ⟨chip, hchip | rfl, hasks⟩
      · exact .inl ⟨chip, hchip, hasks⟩
      · exact .inr hasks
    · rintro (⟨chip, hchip, hasks⟩ | hasks)
      · exact ⟨chip, .inl hchip, hasks⟩
      · exact ⟨_, .inr rfl, hasks⟩
  · rw [List.filter_append, List.map_append, List.filter_append, h.others]
    rfl
  · intro chip hchip hop
    rcases List.mem_append.mp hchip with hchip | hchip
    · obtain ⟨values, hvalues⟩ := h.sets chip hchip hop
      exact ⟨values, List.mem_append_left _ hvalues⟩
    · rw [List.mem_singleton.mp hchip] at hop ⊢
      obtain ⟨values, hvalues⟩ := isIn_of_added hop
      exact ⟨values, List.mem_append_right _ (by simp [← hvalues])⟩
  · simpa using h.count

theorem mem_askedValues_append {key value : String} :
    value ∈ askedValues (reqs ++ [req]) key ↔
      value ∈ askedValues reqs key ∨ value ∈ asked key req := by
  rw [askedValues, List.flatMap_append, List.mem_append, ← askedValues, List.flatMap_singleton]

/-- Without sets only one value is asked of a key. -/
theorem eq_of_askedValues {key value value' : String} (hagree : EqualitiesAgree reqs)
    (hnone : ∀ values, .isIn key values ∉ reqs) (hvalue : value ∈ askedValues reqs key)
    (hvalue' : value' ∈ askedValues reqs key) : value = value' := by
  have heq : ∀ {value}, value ∈ askedValues reqs key → .eq key value ∈ reqs := by
    intro value hvalue
    obtain ⟨req, hreq, hasked⟩ := List.mem_flatMap.mp hvalue
    cases req with
    | eq other same =>
      rw [asked] at hasked
      split at hasked
      · next hkey =>
        rw [List.mem_singleton.mp hasked, ← hkey]
        exact hreq
      · cases hasked
    | isIn other values =>
      rw [asked] at hasked
      split at hasked
      · next hkey => exact absurd (hkey ▸ hreq) (hnone values)
      · cases hasked
    | _ => cases hasked
  exact hagree key value value' (heq hvalue) (heq hvalue')

theorem Merged.merge {before after : List FilterChip} {item : FilterChip}
    (h : Merged localeCompare reqs (before ++ item :: after)) (hreq : req.Formed)
    (hagree : EqualitiesAgree (reqs ++ [req])) (hasks : (added localeCompare req).asks = true)
    (hitem : item.asks = true) (hkey : item.key = (added localeCompare req).key) :
    Merged localeCompare (reqs ++ [req])
      (before ++ merged localeCompare item (added localeCompare req) :: after) := by
  have hadded : Formed (added localeCompare req) := (chipOf_formed hreq).sorted
  have hmergedAsks := @merged_asks localeCompare item (added localeCompare req)
  have hall : ∀ key value, (∃ chip ∈ before ++ merged localeCompare item (added localeCompare req) ::
      after, chip.asks = true ∧ chip.key = key ∧ value ∈ chip.values) ↔
        value ∈ askedValues (reqs ++ [req]) key := by
    intro key value
    rw [mem_askedValues_append, ← h.asked, mem_asked localeCompare]
    simp only [List.mem_append, List.mem_cons]
    constructor
    · rintro ⟨chip, hchip | rfl | hchip, hchipAsks, hchipKey, hmem⟩
      · exact .inl ⟨chip, .inl hchip, hchipAsks, hchipKey, hmem⟩
      · rcases merged_values.mp hmem with hmem | hmem
        · exact .inl ⟨item, .inr (.inl rfl), hitem, hkey.trans hchipKey, hmem⟩
        · exact .inr ⟨hasks, hchipKey, hmem⟩
      · exact .inl ⟨chip, .inr (.inr hchip), hchipAsks, hchipKey, hmem⟩
    · rintro (⟨chip, hchip | rfl | hchip, hchipAsks, hchipKey, hmem⟩ | ⟨-, hchipKey, hmem⟩)
      · exact ⟨chip, .inl hchip, hchipAsks, hchipKey, hmem⟩
      · exact ⟨_, .inr (.inl rfl), hmergedAsks, hkey.symm.trans hchipKey,
          merged_values.mpr (.inl hmem)⟩
      · exact ⟨chip, .inr (.inr hchip), hchipAsks, hchipKey, hmem⟩
      · exact ⟨_, .inr (.inl rfl), hmergedAsks, hchipKey, merged_values.mpr (.inr hmem)⟩
  have htidy : Tidy (before ++ merged localeCompare item (added localeCompare req) :: after) :=
    h.tidy.merge hadded hasks hitem hkey
  refine ⟨htidy.formed, htidy.one, hall, ?_, ?_, ?_⟩
  · have hothers := h.others
    simp only [List.filter_append, List.filter_cons, hitem, hmergedAsks, Bool.not_true,
      Bool.false_eq_true, if_false] at hothers ⊢
    rw [hothers, List.map_append, List.filter_append]
    have hdropped : ([req].map fun req => sortedChip localeCompare (chipOf localeCompare req)).filter
        (fun chip => !chip.asks) = [] := by
      have hsame : (sortedChip localeCompare (chipOf localeCompare req)).asks = true := hasks
      simp [hsame]
    rw [hdropped, List.append_nil]
  · intro chip hchip hop
    have hkept : chip ∈ before ++ item :: after →
        ∃ values, .isIn chip.key values ∈ reqs ++ [req] := fun hchip => by
      obtain ⟨values, hvalues⟩ := h.sets chip hchip hop
      exact ⟨values, List.mem_append_left _ hvalues⟩
    rcases List.mem_append.mp hchip with hchip | hchip
    · exact hkept (List.mem_append_left _ hchip)
    · rcases List.mem_cons.mp hchip with rfl | hchip
      · -- More than one value is only asked for with a set.
        by_contra hnone
        rw [not_exists] at hnone
        have hone : (merged localeCompare item (added localeCompare req)).values.length ≤ 1 :=
          (length_le_one_iff (nodup_uniqueSorted _)).mpr fun value hvalue value' hvalue' =>
            eq_of_askedValues hagree hnone
              ((hall _ value).mp ⟨_, by simp, hmergedAsks, rfl, hvalue⟩)
              ((hall _ value').mp ⟨_, by simp, hmergedAsks, rfl, hvalue'⟩)
        rw [merged] at hop hone
        dsimp only at hop hone
        rw [if_neg (not_lt.mpr hone)] at hop
        cases hop
      · exact hkept (List.mem_append_right _ (.tail _ hchip))
  · simpa using Nat.le_succ_of_le h.count

/-- Adding the chip of one more requirement. -/
theorem Merged.add (h : Merged localeCompare reqs chips) (hreq : req.Formed)
    (hagree : EqualitiesAgree (reqs ++ [req])) :
    Merged localeCompare (reqs ++ [req])
      (addChip localeCompare chips (chipOf localeCompare req)) := by
  rw [addChip_eq hreq]
  split
  · next hasks =>
    rcases @mergeChip_cases localeCompare (added localeCompare req) chips with
      ⟨hnone, hend⟩ | ⟨before, item, after, rfl, hkey, hitem, hmerge⟩
    · rw [hend]
      exact h.append hreq fun _ => hnone
    · rw [hmerge]
      exact h.merge hreq hagree hasks hitem hkey
  · next hasks => exact h.append hreq fun hyes => absurd hyes hasks

/-- The chips of a selector. -/
theorem merged_fold (hreqs : ∀ req ∈ reqs, req.Formed) (hagree : EqualitiesAgree reqs) :
    Merged localeCompare reqs
      ((reqs.map (chipOf localeCompare)).foldl (addChip localeCompare) []) := by
  induction reqs using List.reverseRecOn with
  | nil =>
    refine ⟨fun _ hmem => (by cases hmem), .nil, fun key value => ?_, rfl,
      fun _ hmem => (by cases hmem), le_refl _⟩
    simp [askedValues]
  | append_singleton reqs req ih =>
    rw [List.map_append, List.foldl_append]
    refine (ih (fun req hreq => hreqs req (List.mem_append_left _ hreq)) ?_).add
      (hreqs req (by simp)) hagree
    exact fun key value value' hvalue hvalue' => hagree key value value'
      (List.mem_append_left _ hvalue) (List.mem_append_left _ hvalue')

end

end

end Novbot.Console
