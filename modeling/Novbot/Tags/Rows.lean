import Mathlib.Data.String.Basic
import Mathlib.Data.List.Perm.Basic
import Novbot.Lib.SortedMap
import Novbot.Lib.Text

/-!
# Tags of a node

The format of tags, from `novbot-core/src/tags.rs`, and the rows of one node with the tag
that is effective for a key, from `novbot-center/src/tags.rs`.  A row comes from the center,
was declared by the node or was derived from the node's system.  A declared row may be
invalid, and is kept.

`Chosen` says which row is effective: a valid one, from the center over the node over the
system.  `effective_iff` connects it to `effective_of`.
-/

namespace Novbot.Tags

open Text

def maxCenterTags : Nat := 32

def maxNodeTags : Nat := 32

def maxTagChars : Nat := 63

def maxStoredChars : Nat := 255

inductive Source where
  | system
  | node
  | center
  deriving DecidableEq, Repr

/-- `StoredTag`, without its time and author. -/
structure StoredTag where
  key : String
  value : String
  source : Source
  valid : Bool
  invalidReason : Option String
  deriving DecidableEq, Repr

/-! ## Format -/

def isTagChar (c : Char) : Bool :=
  isAsciiLowercase c || isAsciiDigit c || c == '.' || c == '_' || c == '-'

/-- The characters after the first are counted from one. -/
def keyOk (key : String) : Bool :=
  match key.toList with
  | [] => false
  | c :: rest => isAsciiLowercase c && rest.length < maxTagChars && rest.all isTagChar

def valueOk (value : String) : Bool :=
  1 ≤ value.toList.length && value.toList.length ≤ maxTagChars && value.toList.all isTagChar

def isReservedKey (key : String) : Bool :=
  key == "sys" || "sys.".toList.isPrefixOf key.toList

inductive CenterTagError where
  | keyInvalid
  | valueInvalid
  | keyReserved
  deriving DecidableEq, Repr

def validateCenterTag (key value : String) : Except CenterTagError Unit := do
  if !keyOk key then throw .keyInvalid
  if isReservedKey key then throw .keyReserved
  if !valueOk value then throw .valueInvalid

/-- A key that the center or a node may set. -/
def Free (key : String) : Prop := keyOk key = true ∧ isReservedKey key = false

theorem free_of_validate {key value : String} (h : validateCenterTag key value = .ok ()) :
    Free key := by
  cases hkey : keyOk key <;> cases hreserved : isReservedKey key <;>
    simp [validateCenterTag, hkey, hreserved, bind, Except.bind, throw, throwThe,
      MonadExceptOf.throw] at h
  exact ⟨hkey, hreserved⟩

def cutChars (s : String) (max : Nat) : String := .ofList (s.toList.take max)

def invalidReason (key value : String) : Option String :=
  if maxTagChars < key.toList.length || maxTagChars < value.toList.length then some "too_long"
  else if !keyOk key then some "key_invalid"
  else if isReservedKey key then some "key_reserved"
  else if value.toList = [] then some "value_empty"
  else if !valueOk value then some "value_invalid"
  else none

def classifyOne (key value : String) : StoredTag where
  key := cutChars key maxStoredChars
  value := cutChars value maxStoredChars
  source := .node
  valid := (invalidReason key value).isNone
  invalidReason := invalidReason key value

/-- Valid drafts are over the limit once `validSeen` of them were seen. -/
def limitValid : Nat → List StoredTag → List StoredTag
  | _, [] => []
  | validSeen, draft :: drafts =>
    if !draft.valid then draft :: limitValid validSeen drafts
    else if maxNodeTags ≤ validSeen then
      { draft with valid := false, invalidReason := some "over_limit" } ::
        limitValid validSeen drafts
    else draft :: limitValid (validSeen + 1) drafts

/-- The first draft of each key. -/
def keepFirst : List String → List StoredTag → List StoredTag
  | _, [] => []
  | seen, draft :: drafts =>
    if draft.key ∈ seen then keepFirst seen drafts
    else draft :: keepFirst (draft.key :: seen) drafts

/-- `classify_declared_tags`.  The pairs are sorted by their key, which is not yet cut. -/
def classifyDeclaredTags (pairs : SortedMap String String) : List StoredTag :=
  keepFirst [] (limitValid 0 (pairs.entries.map fun pair => classifyOne pair.1 pair.2))

def systemChar (c : Char) : Char :=
  let c := toAsciiLowercase c
  if isTagChar c then c else '_'

def normalizeSystemValue (raw : String) : Option String :=
  let out := (raw.toList.take maxTagChars).map systemChar
  if out = [] then none else some (.ofList out)

def systemTag (key value : String) : StoredTag := ⟨key, value, .system, true, none⟩

/-- `system_pairs`, as rows. -/
def systemTags (version os arch : String) : List StoredTag :=
  ((normalizeSystemValue version).map (systemTag "sys.version")).toList ++
    ((normalizeSystemValue os).map (systemTag "sys.os")).toList ++
    ((normalizeSystemValue arch).map (systemTag "sys.arch")).toList

def centerTag (key value : String) : StoredTag := ⟨key, value, .center, true, none⟩

/-! ## Rows that can be stored -/

/-- A row of the center is valid and a valid declared one has a free key, and rows of the
system have the others. -/
def StoredTag.Formed (tag : StoredTag) : Prop :=
  match tag.source with
  | .center => tag.valid = true ∧ Free tag.key
  | .node => tag.valid = true → Free tag.key
  | .system => tag.valid = true ∧ isReservedKey tag.key = true

theorem centerTag_formed {key value value' : String} (h : validateCenterTag key value = .ok ()) :
    (centerTag key value').Formed :=
  ⟨rfl, free_of_validate h⟩

theorem classifyOne_valid {key value : String} (h : (classifyOne key value).valid = true) :
    (classifyOne key value).key = key ∧ Free key := by
  have hnone : invalidReason key value = none := Option.isNone_iff_eq_none.mp h
  simp only [invalidReason] at hnone
  split at hnone
  · cases hnone
  · next hlong =>
    split at hnone
    · cases hnone
    · next hkey =>
      split at hnone
      · cases hnone
      · next hreserved =>
        simp only [Bool.or_eq_true, decide_eq_true_eq, not_or, Nat.not_lt] at hlong
        simp only [Bool.not_eq_true, Bool.not_eq_false'] at hkey hreserved
        refine ⟨?_, hkey, hreserved⟩
        have hshort : key.toList.length ≤ maxStoredChars := hlong.1.trans (by decide)
        rw [classifyOne, cutChars, List.take_of_length_le hshort, String.ofList_toList]

theorem mem_limitValid {validSeen : Nat} {drafts : List StoredTag} {tag : StoredTag}
    (h : tag ∈ limitValid validSeen drafts) :
    ∃ draft ∈ drafts, tag.key = draft.key ∧ tag.source = draft.source ∧
      (tag.valid = true → draft.valid = true) := by
  induction drafts generalizing validSeen with
  | nil => cases h
  | cons draft drafts ih =>
    rw [limitValid] at h
    split at h
    · rcases List.mem_cons.mp h with rfl | h
      · exact ⟨tag, List.mem_cons_self, rfl, rfl, id⟩
      · obtain ⟨found, hmem, hrest⟩ := ih h
        exact ⟨found, .tail _ hmem, hrest⟩
    · split at h
      · rcases List.mem_cons.mp h with rfl | h
        · exact ⟨draft, List.mem_cons_self, rfl, rfl, fun hfalse => by cases hfalse⟩
        · obtain ⟨found, hmem, hrest⟩ := ih h
          exact ⟨found, .tail _ hmem, hrest⟩
      · rcases List.mem_cons.mp h with rfl | h
        · exact ⟨tag, List.mem_cons_self, rfl, rfl, id⟩
        · obtain ⟨found, hmem, hrest⟩ := ih h
          exact ⟨found, .tail _ hmem, hrest⟩

theorem mem_keepFirst {seen : List String} {drafts : List StoredTag} {tag : StoredTag}
    (h : tag ∈ keepFirst seen drafts) : tag ∈ drafts := by
  induction drafts generalizing seen with
  | nil => cases h
  | cons draft drafts ih =>
    rw [keepFirst] at h
    split at h
    · exact .tail _ (ih h)
    · rcases List.mem_cons.mp h with rfl | h
      · exact List.mem_cons_self
      · exact .tail _ (ih h)

theorem classifyDeclaredTags_formed {pairs : SortedMap String String} {tag : StoredTag}
    (h : tag ∈ classifyDeclaredTags pairs) : tag.source = .node ∧ tag.Formed := by
  obtain ⟨draft, hdraft, hkey, hsource, hvalid⟩ := mem_limitValid (mem_keepFirst h)
  obtain ⟨pair, -, rfl⟩ := List.mem_map.mp hdraft
  have hnode : tag.source = .node := hsource
  refine ⟨hnode, ?_⟩
  rw [StoredTag.Formed, hnode]
  intro htrue
  obtain ⟨hcut, hfree⟩ := classifyOne_valid (hvalid htrue)
  rw [hkey, hcut]
  exact hfree

theorem systemTags_formed {version os arch : String} {tag : StoredTag}
    (h : tag ∈ systemTags version os arch) : tag.source = .system ∧ tag.Formed := by
  simp only [systemTags, List.mem_append, Option.mem_toList, Option.map_eq_some_iff] at h
  have hreserved : ∀ key ∈ ["sys.version", "sys.os", "sys.arch"], isReservedKey key = true := by
    decide
  rcases h with (⟨value, -, rfl⟩ | ⟨value, -, rfl⟩) | ⟨value, -, rfl⟩
  all_goals exact ⟨rfl, rfl, hreserved _ (by simp [systemTag])⟩

/-! ## Effective tags -/

structure Effective where
  value : String
  source : Source
  overridden : Bool
  deriving DecidableEq, Repr

def findSource (rows : List StoredTag) (key : String) (source : Source) : Option StoredTag :=
  rows.find? fun row => row.valid && row.key == key && row.source == source

def validNodeValue (rows : List StoredTag) (key : String) : Option String :=
  (findSource rows key .node).map (·.value)

/-- The row that `effective_of` takes for a key. -/
def chosen (rows : List StoredTag) (key : String) : Option StoredTag :=
  ((findSource rows key .center).or (findSource rows key .node)).or (findSource rows key .system)

def effectiveTag (rows : List StoredTag) (key : String) : Option Effective :=
  (chosen rows key).map fun tag =>
    ⟨tag.value, tag.source, tag.source == .center && (validNodeValue rows key).isSome⟩

def effectiveOf (rows : List StoredTag) : SortedMap String Effective :=
  .ofList ((rows.filter (·.valid)).filterMap fun row =>
    (effectiveTag rows row.key).map fun effective => (row.key, effective))

def eqIgnoreAsciiCase (a b : String) : Bool :=
  a.toList.map toAsciiLowercase == b.toList.map toAsciiLowercase

/-- A declared `env=prod` that is not valid. -/
def StoredTag.invalidProd (tag : StoredTag) : Bool :=
  tag.source == .node && !tag.valid && eqIgnoreAsciiCase tag.key "env" &&
    eqIgnoreAsciiCase tag.value "prod"

def countsAsProd (rows : List StoredTag) : Bool :=
  rows.any (·.invalidProd) || ((effectiveOf rows).lookup "env").any (·.value == "prod")

structure TagRowView where
  key : String
  value : String
  source : Source
  effective : Bool
  overridden : Bool
  nodeValue : Option String
  valid : Bool
  invalidReason : Option String
  deriving DecidableEq, Repr

def Source.rank : Source → Nat
  | .center => 0
  | .node => 1
  | .system => 2

def viewRow (rows : List StoredTag) (row : StoredTag) : TagRowView where
  key := row.key
  value := row.value
  source := row.source
  effective := row.valid && ((effectiveOf rows).lookup row.key).any fun effective =>
    effective.source == row.source && effective.value == row.value
  overridden := row.source == .center && (validNodeValue rows row.key).isSome
  nodeValue := validNodeValue rows row.key
  valid := row.valid
  invalidReason := row.invalidReason

/-- Sorted by key and then by source. -/
def viewRows (rows : List StoredTag) : List TagRowView :=
  (rows.map (viewRow rows)).mergeSort fun a b =>
    decide (a.key < b.key) || (a.key == b.key && a.source.rank ≤ b.source.rank)

/-! ## Which row is effective -/

/-- The row is valid, and no valid row of its key comes before it. -/
structure Chosen (rows : List StoredTag) (key : String) (tag : StoredTag) : Prop where
  mem : tag ∈ rows
  valid : tag.valid = true
  named : tag.key = key
  least : ∀ other ∈ rows, other.valid = true → other.key = key →
    tag.source.rank ≤ other.source.rank

/-- One row for a key and a source. -/
def Distinct (rows : List StoredTag) : Prop :=
  rows.Pairwise fun a b => ¬(a.key = b.key ∧ a.source = b.source)

theorem Distinct.eq {rows : List StoredTag} (h : Distinct rows) {a b : StoredTag} (ha : a ∈ rows)
    (hb : b ∈ rows) (hkey : a.key = b.key) (hsource : a.source = b.source) : a = b := by
  induction rows with
  | nil => cases ha
  | cons row rows ih =>
    obtain ⟨hrow, hrows⟩ := List.pairwise_cons.mp h
    rcases List.mem_cons.mp ha with rfl | hina
    · rcases List.mem_cons.mp hb with rfl | hinb
      · rfl
      · exact absurd ⟨hkey, hsource⟩ (hrow b hinb)
    · rcases List.mem_cons.mp hb with rfl | hinb
      · exact absurd ⟨hkey.symm, hsource.symm⟩ (hrow a hina)
      · exact ih hrows hina hinb

section
variable {rows : List StoredTag} {key : String} {tag : StoredTag}

theorem findSource_of_eq_some {source : Source} (h : findSource rows key source = some tag) :
    tag ∈ rows ∧ tag.valid = true ∧ tag.key = key ∧ tag.source = source := by
  have hp := List.find?_some h
  simp only [Bool.and_eq_true, beq_iff_eq] at hp
  exact ⟨List.mem_of_find?_eq_some h, hp.1.1, hp.1.2, hp.2⟩

theorem findSource_eq_none {source : Source} (h : findSource rows key source = none) :
    ∀ other ∈ rows, other.valid = true → other.key = key → other.source ≠ source := by
  intro other hother hvalid hkey hsource
  have hno := List.find?_eq_none.mp h other hother
  simp [hvalid, hkey, hsource] at hno

theorem findSource_eq_some (hrows : Distinct rows) {source : Source} :
    findSource rows key source = some tag ↔
      tag ∈ rows ∧ tag.valid = true ∧ tag.key = key ∧ tag.source = source := by
  refine ⟨findSource_of_eq_some, ?_⟩
  rintro ⟨hmem, hvalid, hkey, hsource⟩
  cases hfind : findSource rows key source with
  | none => exact absurd hsource (findSource_eq_none hfind tag hmem hvalid hkey)
  | some found =>
    obtain ⟨hfound, -, hkey', hsource'⟩ := findSource_of_eq_some hfind
    rw [hrows.eq hfound hmem (hkey'.trans hkey.symm) (hsource'.trans hsource.symm)]

theorem chosen_chosen (h : chosen rows key = some tag) : Chosen rows key tag := by
  rw [chosen] at h
  cases hcenter : findSource rows key .center with
  | some found =>
    rw [hcenter] at h
    cases h
    obtain ⟨hmem, hvalid, hkey, hsource⟩ := findSource_of_eq_some hcenter
    exact ⟨hmem, hvalid, hkey, fun other _ _ _ => by simp [hsource, Source.rank]⟩
  | none =>
    have hnocenter := findSource_eq_none hcenter
    cases hnode : findSource rows key .node with
    | some found =>
      rw [hcenter, hnode] at h
      cases h
      obtain ⟨hmem, hvalid, hkey, hsource⟩ := findSource_of_eq_some hnode
      refine ⟨hmem, hvalid, hkey, fun other hother hvalid hkey => ?_⟩
      have hne := hnocenter other hother hvalid hkey
      cases hsource' : other.source <;> simp_all [Source.rank]
    | none =>
      have hnonode := findSource_eq_none hnode
      rw [hcenter, hnode] at h
      obtain ⟨hmem, hvalid, hkey, hsource⟩ := findSource_of_eq_some h
      refine ⟨hmem, hvalid, hkey, fun other hother hvalid hkey => ?_⟩
      have hne := hnocenter other hother hvalid hkey
      have hne' := hnonode other hother hvalid hkey
      cases hsource' : other.source <;> simp_all [Source.rank]

theorem chosen_isSome (hmem : tag ∈ rows) (hvalid : tag.valid = true) (hkey : tag.key = key) :
    (chosen rows key).isSome = true := by
  have hfind : (findSource rows key tag.source).isSome = true := by
    rw [findSource, List.find?_isSome]
    exact ⟨tag, hmem, by simp [hvalid, hkey]⟩
  cases hsource : tag.source <;> rw [hsource] at hfind <;> simp [chosen, hfind]

theorem Source.rank_injective {a b : Source} (h : a.rank = b.rank) : a = b := by
  cases a <;> cases b <;> first | rfl | cases h

theorem chosen_eq_some (hrows : Distinct rows) :
    chosen rows key = some tag ↔ Chosen rows key tag := by
  refine ⟨chosen_chosen, fun h => ?_⟩
  obtain ⟨found, hfound⟩ := Option.isSome_iff_exists.mp (chosen_isSome h.mem h.valid h.named)
  have hleast := chosen_chosen hfound
  have hrank : found.source.rank = tag.source.rank :=
    le_antisymm (hleast.least tag h.mem h.valid h.named)
      (h.least found hleast.mem hleast.valid hleast.named)
  rw [hfound, hrows.eq hleast.mem h.mem (hleast.named.trans h.named.symm)
    (Source.rank_injective hrank)]

theorem lookup_effectiveOf (rows : List StoredTag) (key : String) :
    (effectiveOf rows).lookup key = effectiveTag rows key := by
  have hbinding : ∀ {binding : String × Effective},
      binding ∈ (rows.filter (·.valid)).filterMap (fun row =>
        (effectiveTag rows row.key).map fun effective => (row.key, effective)) →
      effectiveTag rows binding.1 = some binding.2 := by
    intro binding h
    obtain ⟨row, -, hrow⟩ := List.mem_filterMap.mp h
    obtain ⟨effective, heffective, rfl⟩ := Option.map_eq_some_iff.mp hrow
    exact heffective
  refine Option.ext fun effective => ?_
  rw [effectiveOf, SortedMap.lookup_ofList_iff]
  · refine ⟨hbinding, fun h => ?_⟩
    obtain ⟨tag, htag, -⟩ := Option.map_eq_some_iff.mp h
    have hchosen := chosen_chosen htag
    refine List.mem_filterMap.mpr ⟨tag, List.mem_filter.mpr ⟨hchosen.mem, hchosen.valid⟩, ?_⟩
    rw [hchosen.named, h]
    rfl
  · intro a ha b hb hkey
    have heq := hbinding ha
    rw [hkey, hbinding hb] at heq
    exact (Option.some.inj heq).symm

end

end Novbot.Tags
