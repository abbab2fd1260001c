import Mathlib.Data.Prod.Lex
import Novbot.Lib.Grouping
import Novbot.Tags.Views

/-!
# The overview of tags

`overview` of `novbot-center/src/tags.rs` counts the nodes that have a value of a key.  It
reads `nodes` and then `node_tags`, in two statements, and computes the effective tags of each
node from the rows that name it as `nodes` does.

`Counted` says what it counts: for every key and value the nodes with that effective tag, all
of them and by the source of the tag, and the nodes without a recommended key.
-/

namespace Novbot.Tags

open SortedMap

def Source.name : Source → String
  | .system => "system"
  | .node => "node"
  | .center => "center"

structure TagValueStat where
  value : String
  nodes : Nat
  sources : SortedMap String Nat
  deriving DecidableEq

structure TagKeyStat where
  key : String
  values : List TagValueStat
  deriving DecidableEq

structure RareValue where
  key : String
  value : String
  nodes : Nat
  deriving DecidableEq, Repr

structure InvalidTag where
  nodeId : String
  key : String
  value : String
  invalidReason : String
  deriving DecidableEq, Repr

structure TagOverview where
  keys : List TagKeyStat
  missing : SortedMap String Nat
  rareValues : List RareValue
  invalid : List InvalidTag
  deriving DecidableEq

/-! ## Counting -/

/-- The rows of each node. -/
def byNode (rows : List TagRow) : SortedMap String (List StoredTag) :=
  group TagRow.nodeId [] (fun tags row => tags ++ [row.tag]) rows

def tagsOf (rows : List TagRow) (nodeId : String) : SortedMap String Effective :=
  effectiveOf (((byNode rows).lookup nodeId).getD [])

/-- The nodes with a value, and how many have it from each source. -/
structure ValueCount where
  nodes : Nat
  sources : SortedMap String Nat
  deriving DecidableEq

def ValueCount.add (count : ValueCount) (item : String × Effective) : ValueCount :=
  ⟨count.nodes + 1, SortedMap.addTo id 0 (fun n _ => n + 1) count.sources item.2.source.name⟩

def pairOf (item : String × Effective) : String ×ₗ String := toLex (item.1, item.2.value)

def counts (nodeIds : List String) (rows : List TagRow) :
    SortedMap (String ×ₗ String) ValueCount :=
  group pairOf ⟨0, empty⟩ ValueCount.add (nodeIds.flatMap fun id => (tagsOf rows id).entries)

def keyOf (entry : (String ×ₗ String) × ValueCount) : String := (ofLex entry.1).1

def statOf (entry : (String ×ₗ String) × ValueCount) : TagValueStat :=
  ⟨(ofLex entry.1).2, entry.2.nodes, entry.2.sources⟩

def keyStats (counts : SortedMap (String ×ₗ String) ValueCount) : List TagKeyStat :=
  (group keyOf [] (fun stats entry => stats ++ [statOf entry]) counts.entries).entries.map
    fun grouped => ⟨grouped.1, grouped.2.mergeSort fun a b => a.value ≤ b.value⟩

def rareValues (counts : SortedMap (String ×ₗ String) ValueCount) : List RareValue :=
  ((counts.entries.filter fun entry => entry.2.nodes == 1).map fun entry =>
      RareValue.mk (keyOf entry) (statOf entry).value entry.2.nodes).mergeSort
    fun a b => a.key < b.key || (a.key == b.key && a.value ≤ b.value)

/-- The nodes without the key. -/
def missingKey (nodeIds : List String) (rows : List TagRow) (key : String) : Nat :=
  nodeIds.countP fun id => !(tagsOf rows id).contains key

/-- What the nodes declared and the center does not take. -/
def invalidTags (rows : List TagRow) : List InvalidTag :=
  ((rows.filter fun row => row.tag.source == .node && !row.tag.valid).map fun row =>
      InvalidTag.mk row.nodeId row.tag.key row.tag.value (row.tag.invalidReason.getD "")).mergeSort
    fun a b => a.nodeId < b.nodeId || (a.nodeId == b.nodeId &&
      (a.key < b.key || (a.key == b.key && a.value ≤ b.value)))

def overview (nodeIds : List String) (rows : List TagRow) : TagOverview where
  keys := keyStats (counts nodeIds rows)
  missing := (empty.insert "env" (missingKey nodeIds rows "env")).insert "role"
    (missingKey nodeIds rows "role")
  rareValues := rareValues (counts nodeIds rows)
  invalid := invalidTags rows

/-! ## What is counted -/

/-- The node has this value of the key. -/
def carries (tags : SortedMap String Effective) (key value : String) : Bool :=
  (tags.lookup key).any fun effective => effective.value == value

/-- It has it from this source. -/
def carriesFrom (tags : SortedMap String Effective) (key value : String) (source : Source) : Bool :=
  (tags.lookup key).any fun effective => effective.value == value && effective.source == source

/-- The overview has this line for the key. -/
def TagOverview.Lists (overview : TagOverview) (key : String) (item : TagValueStat) : Prop :=
  ∃ stat ∈ overview.keys, stat.key = key ∧ item ∈ stat.values

structure Counted (nodeIds : List String) (tags : String → SortedMap String Effective)
    (overview : TagOverview) : Prop where
  /-- There is a line for each value that a node has. -/
  lists : ∀ key value, (∃ item, overview.Lists key item ∧ item.value = value) ↔
    ∃ id ∈ nodeIds, carries (tags id) key value = true
  nodes : ∀ key item, overview.Lists key item →
    item.nodes = nodeIds.countP fun id => carries (tags id) key item.value
  sources : ∀ key item, overview.Lists key item → ∀ source : Source,
    (item.sources.lookup source.name).getD 0 =
      nodeIds.countP fun id => carriesFrom (tags id) key item.value source
  keys : (overview.keys.map (·.key)).Pairwise (· < ·)
  values : ∀ stat ∈ overview.keys, (stat.values.map (·.value)).Pairwise (· < ·)
  rare : ∀ key value nodes, ⟨key, value, nodes⟩ ∈ overview.rareValues ↔
    nodes = 1 ∧ ∃ item, overview.Lists key item ∧ item.value = value ∧ item.nodes = 1
  /-- A rare value is shown once. -/
  rareOnce : (overview.rareValues.map fun rare => (rare.key, rare.value)).Nodup
  missing : ∀ key ∈ ["env", "role"],
    overview.missing.lookup key = some (nodeIds.countP fun id => !(tags id).contains key)

theorem tagsOf_eq (rows : List TagRow) (nodeId : String) :
    tagsOf rows nodeId = effectiveOf ((having TagRow.nodeId rows nodeId).map (·.tag)) := by
  rw [tagsOf, byNode, getD_lookup_group, foldl_concat, List.nil_append]

theorem foldl_add (items : List (String × Effective)) (count : ValueCount) :
    items.foldl ValueCount.add count = ⟨count.nodes + items.length,
      (items.map (·.2.source.name)).foldl (SortedMap.addTo id 0 fun n _ => n + 1) count.sources⟩ := by
  induction items generalizing count with
  | nil => rfl
  | cons item items ih =>
    rw [List.foldl_cons, ih, ValueCount.add, List.length_cons, List.map_cons, List.foldl_cons,
      Nat.add_assoc, Nat.add_comm 1]

/-- The tag of a node that is counted for a value. -/
def counted (tags : SortedMap String Effective) (key value : String) : Option Effective :=
  (tags.lookup key).filter fun effective => effective.value == value

section
variable {nodeIds : List String} {rows : List TagRow} {key value : String}

/-- The items of a pair, one for each node that has it. -/
theorem having_pair (key value : String) :
    having pairOf (nodeIds.flatMap fun id => (tagsOf rows id).entries) (toLex (key, value)) =
      nodeIds.filterMap fun id => (counted (tagsOf rows id) key value).map (Prod.mk key) := by
  rw [having, List.filter_flatMap, List.filterMap_eq_flatMap_toList]
  refine List.flatMap_congr fun id _ => ?_
  have hpair : ((tagsOf rows id).entries.filter fun item =>
      decide (pairOf item = toLex (key, value))) =
        (having Prod.fst (tagsOf rows id).entries key).filter fun item => item.2.value == value := by
    rw [having, List.filter_filter]
    refine List.filter_congr fun item _ => ?_
    rw [Bool.eq_iff_iff, decide_eq_true_eq, Bool.and_eq_true, beq_iff_eq, decide_eq_true_eq, pairOf,
      toLex_inj, Prod.mk.injEq, and_comm]
  rw [hpair, having_entries, counted]
  cases (tagsOf rows id).lookup key with
  | none => rfl
  | some effective => by_cases hvalue : effective.value = value <;> simp [Option.filter, hvalue]

/-- The entry of a pair. -/
theorem mem_counts {count : ValueCount} :
    (toLex (key, value), count) ∈ (counts nodeIds rows).entries ↔
      (∃ id ∈ nodeIds, carries (tagsOf rows id) key value = true) ∧
        count = ⟨nodeIds.countP fun id => carries (tagsOf rows id) key value,
          tally (nodeIds.filterMap fun id =>
            (counted (tagsOf rows id) key value).map (·.source.name))⟩ := by
  have hsome : ∀ id, (counted (tagsOf rows id) key value).isSome =
      carries (tagsOf rows id) key value := by
    intro id
    rw [counted, carries]
    cases (tagsOf rows id).lookup key with
    | none => rfl
    | some effective => by_cases hvalue : effective.value = value <;> simp [Option.filter, hvalue]
  rw [counts, mem_group, having_pair, foldl_add, List.length_filterMap_eq_countP, List.map_filterMap,
    Nat.zero_add]
  refine and_congr ?_ ?_
  · have hany : (∃ item ∈ nodeIds.flatMap fun id => (tagsOf rows id).entries,
        pairOf item = toLex (key, value)) ↔
          ∃ item, item ∈ nodeIds.filterMap fun id =>
            (counted (tagsOf rows id) key value).map (Prod.mk key) := by
      rw [← having_pair]
      exact exists_congr fun item => mem_having.symm
    rw [hany]
    constructor
    · rintro ⟨item, hitem⟩
      obtain ⟨id, hid, hitem⟩ := List.mem_filterMap.mp hitem
      obtain ⟨effective, heffective, -⟩ := Option.map_eq_some_iff.mp hitem
      refine ⟨id, hid, ?_⟩
      rw [← hsome, heffective]
      rfl
    · rintro ⟨id, hid, hcarries⟩
      rw [← hsome] at hcarries
      obtain ⟨effective, heffective⟩ := Option.isSome_iff_exists.mp hcarries
      exact ⟨(key, effective), List.mem_filterMap.mpr ⟨id, hid, by rw [heffective]; rfl⟩⟩
  · simp only [Option.isSome_map, hsome, Option.map_map]
    rfl

/-- Of those that have a value, the ones of a source. -/
theorem lookup_sources (source : Source) :
    ((tally (nodeIds.filterMap fun id =>
        (counted (tagsOf rows id) key value).map (·.source.name))).lookup source.name).getD 0 =
      nodeIds.countP fun id => carriesFrom (tagsOf rows id) key value source := by
  rw [lookup_tally, List.count, List.countP_filterMap]
  refine List.countP_congr fun id _ => ?_
  have hname : ∀ a : Source, (a.name == source.name) = (a == source) := by
    intro a
    cases a <;> cases source <;> rfl
  rw [counted, carriesFrom]
  cases (tagsOf rows id).lookup key with
  | none => simp
  | some effective =>
    by_cases hvalue : effective.value = value <;> simp [Option.filter, hvalue, hname]

/-! ## The lines -/

theorem lists_iff {item : TagValueStat} : (overview nodeIds rows).Lists key item ↔
    (toLex (key, item.value), ValueCount.mk item.nodes item.sources) ∈
      (counts nodeIds rows).entries := by
  constructor
  · rintro ⟨stat, hstat, rfl, hitem⟩
    obtain ⟨grouped, hgrouped, rfl⟩ := List.mem_map.mp hstat
    obtain ⟨-, hvalues⟩ := mem_group.mp hgrouped
    rw [foldl_concat, List.nil_append] at hvalues
    rw [List.mem_mergeSort, hvalues] at hitem
    obtain ⟨entry, hentry, rfl⟩ := List.mem_map.mp hitem
    obtain ⟨hin, hkey⟩ := mem_having.mp hentry
    rw [← hkey]
    exact hin
  · intro hin
    have hgrouped : (key, (having keyOf (counts nodeIds rows).entries key).map statOf) ∈
        (group keyOf [] (fun stats entry => stats ++ [statOf entry])
          (counts nodeIds rows).entries).entries := by
      refine mem_group.mpr ⟨⟨_, hin, rfl⟩, ?_⟩
      rw [foldl_concat, List.nil_append]
    refine ⟨_, List.mem_map_of_mem hgrouped, rfl, List.mem_mergeSort.mpr ?_⟩
    exact List.mem_map.mpr ⟨_, mem_having.mpr ⟨hin, rfl⟩, rfl⟩

/-- Entries of one key have different values. -/
theorem values_differ (counts : SortedMap (String ×ₗ String) ValueCount) (key : String) :
    ((having keyOf counts.entries key).map fun entry => (statOf entry).value).Nodup := by
  have hsorted : (having keyOf counts.entries key).Pairwise fun a b => a.1 < b.1 :=
    counts.sorted.filter _
  refine List.pairwise_map.mpr (hsorted.imp_of_mem fun {a b} ha hb hlt hvalue => ?_)
  have hkey : keyOf a = keyOf b := (mem_having.mp ha).2.trans (mem_having.mp hb).2.symm
  have hsame : a.1 = b.1 := ofLex.injective (Prod.ext hkey hvalue)
  exact hlt.ne hsame

theorem values_ascend {stat : TagKeyStat} (h : stat ∈ (overview nodeIds rows).keys) :
    (stat.values.map (·.value)).Pairwise (· < ·) := by
  obtain ⟨grouped, hgrouped, rfl⟩ := List.mem_map.mp h
  obtain ⟨-, hvalues⟩ := mem_group.mp hgrouped
  rw [foldl_concat, List.nil_append] at hvalues
  have hperm := List.mergeSort_perm grouped.2 fun a b : TagValueStat => a.value ≤ b.value
  have hdiffer : ((grouped.2.mergeSort fun a b => a.value ≤ b.value).map (·.value)).Nodup := by
    rw [(hperm.map _).nodup_iff, hvalues, List.map_map]
    exact values_differ (counts nodeIds rows) grouped.1
  have hsorted := @List.pairwise_mergeSort _ (fun a b : TagValueStat => a.value ≤ b.value)
    (fun a b c hab hbc => by simpa using le_trans (of_decide_eq_true hab) (of_decide_eq_true hbc))
    (fun a b => by simpa using le_total a.value b.value) grouped.2
  refine List.pairwise_map.mpr ?_
  refine (hsorted.and (List.pairwise_map.mp hdiffer)).imp fun hboth => ?_
  exact lt_of_le_of_ne (of_decide_eq_true hboth.1) hboth.2

theorem keys_ascend : ((overview nodeIds rows).keys.map (·.key)).Pairwise (· < ·) := by
  show ((keyStats (counts nodeIds rows)).map (·.key)).Pairwise (· < ·)
  rw [keyStats, List.map_map]
  exact List.pairwise_map.mpr (group keyOf _ _ (counts nodeIds rows).entries).sorted

theorem mem_rareValues {nodes : Nat} :
    ⟨key, value, nodes⟩ ∈ (overview nodeIds rows).rareValues ↔
      nodes = 1 ∧ ∃ item, (overview nodeIds rows).Lists key item ∧ item.value = value ∧
        item.nodes = 1 := by
  rw [show (overview nodeIds rows).rareValues = rareValues (counts nodeIds rows) from rfl, rareValues,
    List.mem_mergeSort, List.mem_map]
  constructor
  · rintro ⟨entry, hentry, heq⟩
    obtain ⟨hin, hone⟩ := List.mem_filter.mp hentry
    rw [beq_iff_eq] at hone
    cases heq
    exact ⟨hone, statOf entry, lists_iff.mpr hin, rfl, hone⟩
  · rintro ⟨rfl, item, hitem, rfl, hone⟩
    refine ⟨_, List.mem_filter.mpr ⟨lists_iff.mp hitem, by rw [hone]; rfl⟩, ?_⟩
    rw [hone]
    rfl

theorem rare_once : ((overview nodeIds rows).rareValues.map fun rare => (rare.key, rare.value)).Nodup := by
  have hperm := List.mergeSort_perm (((counts nodeIds rows).entries.filter fun entry =>
    entry.2.nodes == 1).map fun entry => RareValue.mk (keyOf entry) (statOf entry).value entry.2.nodes)
      fun a b => a.key < b.key || (a.key == b.key && a.value ≤ b.value)
  refine ((hperm.map _).nodup_iff).mpr ?_
  rw [List.map_map]
  have hsorted : ((counts nodeIds rows).entries.filter fun entry => entry.2.nodes == 1).Pairwise
      fun a b => a.1 < b.1 := (counts nodeIds rows).sorted.filter _
  refine List.pairwise_map.mpr (hsorted.imp fun hlt hpair => ?_)
  exact hlt.ne (ofLex.injective hpair)

/-- The overview counts the nodes by their effective tags. -/
theorem overview_counted (nodeIds : List String) (rows : List TagRow) :
    Counted nodeIds (tagsOf rows) (overview nodeIds rows) where
  lists key value := by
    constructor
    · rintro ⟨item, hitem, rfl⟩
      exact (mem_counts.mp (lists_iff.mp hitem)).1
    · intro hsome
      have hin := mem_counts.mpr ⟨hsome, rfl⟩
      exact ⟨⟨value, _, _⟩, lists_iff.mpr hin, rfl⟩
  nodes key item hitem := congrArg ValueCount.nodes (mem_counts.mp (lists_iff.mp hitem)).2
  sources key item hitem source := by
    have hsources := congrArg ValueCount.sources (mem_counts.mp (lists_iff.mp hitem)).2
    dsimp only at hsources
    rw [hsources, lookup_sources]
  keys := keys_ascend
  values _ hstat := values_ascend hstat
  rare _ _ _ := mem_rareValues
  rareOnce := rare_once
  missing key hkey := by
    rcases List.mem_cons.mp hkey with rfl | hkey
    · simp [overview, lookup_insert, missingKey]
    · rw [List.mem_singleton.mp hkey]
      simp [overview, lookup_insert, missingKey]

theorem mem_invalidTags {shown : InvalidTag} : shown ∈ invalidTags rows ↔
    ∃ row ∈ rows, row.tag.source = .node ∧ row.tag.valid = false ∧
      ⟨row.nodeId, row.tag.key, row.tag.value, row.tag.invalidReason.getD ""⟩ = shown := by
  rw [invalidTags, List.mem_mergeSort, List.mem_map]
  refine exists_congr fun row => ?_
  rw [List.mem_filter, Bool.and_eq_true, beq_iff_eq, Bool.not_eq_true', and_assoc, and_assoc]

end

/-! ## Tags that a selector can name -/

/-- A valid tag has the format of selectors. -/
def StoredTag.Fits (tag : StoredTag) : Prop :=
  tag.valid = true → keyOk tag.key = true ∧ valueOk tag.value = true

theorem fits_of_validate {key value : String} (h : validateCenterTag key value = .ok ()) :
    (centerTag key value).Fits := by
  intro _
  cases hkey : keyOk key <;> cases hreserved : isReservedKey key <;> cases hvalue : valueOk value <;>
    simp [validateCenterTag, hkey, hreserved, hvalue, bind, Except.bind, throw, throwThe,
      MonadExceptOf.throw] at h
  exact ⟨hkey, hvalue⟩

/-- The limit changes only what it makes invalid. -/
theorem mem_of_limitValid {validSeen : Nat} {drafts : List StoredTag} {tag : StoredTag}
    (h : tag ∈ limitValid validSeen drafts) (hvalid : tag.valid = true) : tag ∈ drafts := by
  induction drafts generalizing validSeen with
  | nil => cases h
  | cons draft drafts ih =>
    rw [limitValid] at h
    split at h
    · rcases List.mem_cons.mp h with rfl | h
      · exact List.mem_cons_self
      · exact .tail _ (ih h)
    · split at h
      · rcases List.mem_cons.mp h with rfl | h
        · cases hvalid
        · exact .tail _ (ih h)
      · rcases List.mem_cons.mp h with rfl | h
        · exact List.mem_cons_self
        · exact .tail _ (ih h)

theorem classifyOne_fits (key value : String) : (classifyOne key value).Fits := by
  intro hvalid
  obtain ⟨hkey, hfree⟩ := classifyOne_valid hvalid
  have hnone : invalidReason key value = none := Option.isNone_iff_eq_none.mp hvalid
  rw [invalidReason] at hnone
  split at hnone
  · cases hnone
  · next hlong =>
    rw [Bool.or_eq_true, decide_eq_true_eq, decide_eq_true_eq, not_or, not_lt, not_lt] at hlong
    have hshort : value.toList.length ≤ maxStoredChars := hlong.2.trans (by decide)
    have hcut : (classifyOne key value).value = value := by
      show cutChars value maxStoredChars = value
      rw [cutChars, List.take_of_length_le hshort, String.ofList_toList]
    rw [hkey, hcut]
    refine ⟨hfree.1, ?_⟩
    cases hvalue : valueOk value with
    | true => rfl
    | false =>
      rw [hfree.1, hfree.2, hvalue] at hnone
      by_cases hempty : value.toList = [] <;> simp [hempty] at hnone

theorem classifyDeclaredTags_fits {pairs : SortedMap String String} {tag : StoredTag}
    (h : tag ∈ classifyDeclaredTags pairs) : tag.Fits := by
  intro hvalid
  have hdraft := mem_of_limitValid (mem_keepFirst h) hvalid
  obtain ⟨pair, -, rfl⟩ := List.mem_map.mp hdraft
  exact classifyOne_fits pair.1 pair.2 hvalid

theorem systemTag_fits {raw value key : String} (h : normalizeSystemValue raw = some value)
    (hkey : keyOk key = true) : (systemTag key value).Fits := by
  intro _
  rw [normalizeSystemValue] at h
  split at h
  · cases h
  · next hne =>
    cases h
    refine ⟨hkey, ?_⟩
    have hchar : ∀ c, isTagChar (systemChar c) = true := by
      intro c
      rw [systemChar]
      split
      · next htag => exact htag
      · rfl
    have hlength : 1 ≤ ((raw.toList.take maxTagChars).map systemChar).length :=
      List.length_pos_iff.mpr hne
    have hshort : ((raw.toList.take maxTagChars).map systemChar).length ≤ maxTagChars := by
      rw [List.length_map, List.length_take]
      exact Nat.min_le_left _ _
    have hall : ((raw.toList.take maxTagChars).map systemChar).all isTagChar = true := by
      rw [List.all_map, List.all_eq_true]
      exact fun c _ => hchar c
    show valueOk (.ofList ((raw.toList.take maxTagChars).map systemChar)) = true
    rw [valueOk, String.toList_ofList, hall, decide_eq_true hlength, decide_eq_true hshort]
    rfl

theorem systemTags_fits {version os arch : String} {tag : StoredTag}
    (h : tag ∈ systemTags version os arch) : tag.Fits := by
  simp only [systemTags, List.mem_append, Option.mem_toList, Option.map_eq_some_iff] at h
  rcases h with (⟨value, hvalue, rfl⟩ | ⟨value, hvalue, rfl⟩) | ⟨value, hvalue, rfl⟩
  all_goals exact systemTag_fits hvalue (by decide)

def Write.Fits : Write → Prop
  | .insertTag _ tag => tag.Fits
  | _ => True

theorem Commits.fits {loc : Loc} {writes : List Write} (h : Commits loc writes) :
    ∀ write ∈ writes, write.Fits := by
  cases h with
  | set _ hvalid _ _ _ =>
    intro write hwrite
    rw [List.mem_singleton.mp hwrite]
    exact fits_of_validate hvalid
  | delete _ _ _ _ =>
    intro write hwrite
    rw [List.mem_singleton.mp hwrite]
    trivial
  | bulk _ htargets hmade _ _ _ =>
    obtain ⟨hadd, hremove⟩ := targets_ok htargets
    intro write hwrite
    obtain ⟨plan, hplan, hwrite⟩ := List.mem_flatMap.mp hwrite
    obtain ⟨change, hchange, rfl⟩ := List.mem_map.mp hwrite
    cases hfound : plan.found with
    | false =>
      rw [NodePlan.changes, hfound] at hchange
      cases hchange
    | true =>
      obtain ⟨rows, -, hplan⟩ := hmade plan hplan hfound
      rw [hplan] at hchange
      rcases planNode_requested hremove hchange with ⟨key, -, rfl⟩ | ⟨entry, hentry, rfl⟩
      · trivial
      · exact fits_of_validate (hadd entry hentry)
  | register _ _ =>
    intro write hwrite
    simp only [Registration.writes, List.mem_cons, List.mem_map, List.mem_append] at hwrite
    rcases hwrite with rfl | rfl | ⟨tag, htag | htag, rfl⟩
    · trivial
    · trivial
    · exact classifyDeclaredTags_fits htag
    · exact systemTags_fits htag

section
variable {fold : String → String}

theorem backfill_fits {tables : Tables} {node : Node} {write : Write}
    (h : write ∈ backfillWrites fold tables node) : write.Fits := by
  rcases List.mem_append.mp h with h | h
  · split at h
    · cases h
    · obtain ⟨tag, htag, rfl⟩ := List.mem_map.mp h
      exact classifyDeclaredTags_fits htag
  · split at h
    · cases h
    · split at h
      · cases h
      · obtain ⟨value, hvalue, rfl⟩ := Option.map_eq_some_iff.mp (Option.mem_toList.mp h)
        exact systemTag_fits hvalue (by decide)

/-- Every valid row has the format of selectors. -/
def Nameable (tables : Tables) : Prop := ∀ row ∈ tables.tags, row.tag.Fits

theorem Nameable.applyAll {writes : List Write} {tables : Tables} (h : Nameable tables)
    (hwrites : ∀ write ∈ writes, write.Fits) : Nameable (applyAll fold writes tables) := by
  induction writes generalizing tables with
  | nil => exact h
  | cons write writes ih =>
    obtain ⟨hwrite, hrest⟩ := List.forall_mem_cons.mp hwrites
    refine ih (fun row hrow => ?_) hrest
    cases write with
    | upsertNode node => exact h row hrow
    | insertTag nodeId tag =>
      rcases mem_insertTag hrow with hold | ⟨rfl, -⟩
      · exact h row hold
      · exact hwrite
    | deleteReported nodeId => exact h row (List.mem_filter.mp hrow).1
    | deleteCenter nodeId key => exact h row (List.mem_filter.mp hrow).1

/-- In every run, whatever order requests ran in. -/
theorem nameable_of_reaches {ok : System → Concurrent.Move Nat Unit Event → Prop} {sys : System}
    (h : (center fold).Reaches ok initial sys) : Nameable sys.shared.tables := by
  refine tables_of_reaches ?_ ?_ ?_ h
  · intro row hrow
    cases hrow
  · exact fun _ _ _ _ hnameable _ _ hcommits _ => hnameable.applyAll hcommits.fits
  · exact fun _ _ _ hnameable _ _ => hnameable.applyAll fun _ hwrite => backfill_fits hwrite

end

end Novbot.Tags
