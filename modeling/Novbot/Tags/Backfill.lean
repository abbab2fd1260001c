import Novbot.Lib.Json
import Novbot.Tags.Registered

/-!
# The backfill at the start of the center

`backfill` writes the rows of nodes that were stored before there was a table of tags.  It asks
whether a node has declared rows, and whether it has its version, and inserts what is missing.

Every row is kept and a second backfill finds nothing to do.  The inserts are those of a
registration, so that labels whose keys meet end in one row (`backfills_iff`).
-/

namespace Novbot.Tags

/-! ## The code -/

/-- `parse_label_object`, of what `serde_json` makes of the text. -/
def parseLabelObject : Option Json → SortedMap String String
  | some (.obj members) =>
    .ofList (members.filterMap fun (key, value) =>
      match value with
      | .str text => some (key, text)
      | _ => none)
  | _ => .ofList []

/-- The widths of the columns. -/
def StoredTag.fits (tag : StoredTag) : Bool :=
  tag.key.toList.length ≤ 255 && tag.value.toList.length ≤ 255 &&
    tag.invalidReason.all fun reason => reason.toList.length ≤ 32

section
variable (fold : String → String)

/-- `insert_tag`, which fails when a column is too narrow. -/
def insertStored (tables : Tables) (nodeId : String) (tag : StoredTag) : Option Tables :=
  if tag.fits then some ((Write.insertTag nodeId tag).applyBy fold padded tables) else none

/-- The count of the rows that a node declared is not zero. -/
def hasDeclared (tags : List TagRow) (nodeId : String) : Bool :=
  tags.any fun row => sameNode fold row.nodeId nodeId && row.tag.source == .node

def hasVersion (tags : List TagRow) (nodeId : String) : Bool :=
  tags.any (·.holdsBy fold padded nodeId .system "sys.version")

/-- The first half of `backfill_one_tx`, with the labels as they are read. -/
def backfillDeclared (tables : Tables) (node : Node) : Option Tables :=
  if hasDeclared fold tables.tags node.nodeId then some tables
  else if node.labels.entries = [] then some tables
  else
    (classifyDeclaredTags node.labels).foldlM
      (fun tables tag => insertStored fold tables node.nodeId tag) tables

/-- The second half. -/
def backfillVersion (tables : Tables) (node : Node) : Option Tables :=
  if hasVersion fold tables.tags node.nodeId || node.version = "" || node.version = "http-admin" then
    some tables
  else
    match normalizeSystemValue node.version with
    | some value => insertStored fold tables node.nodeId (systemTag "sys.version" value)
    | none => some tables

def backfillOne (tables : Tables) (node : Node) : Option Tables :=
  (backfillDeclared fold tables node).bind fun tables => backfillVersion fold tables node

/-- `backfill`, for the nodes that are there when it begins. -/
def backfill (tables : Tables) : Option Tables := tables.nodes.foldlM (backfillOne fold) tables

end

/-- What a registration stores of its labels is read back. -/
theorem parseLabelObject_written (declared : SortedMap String String) :
    parseLabelObject (some (.obj (declared.entries.map fun pair => (pair.1, .str pair.2)))) =
      declared := by
  rw [parseLabelObject, List.filterMap_map]
  exact (congrArg SortedMap.ofList List.filterMap_some).trans (SortedMap.ofList_entries declared)

/-! ## Inserts -/

theorem length_cutChars (s : String) (max : Nat) : (cutChars s max).toList.length ≤ max := by
  rw [cutChars, String.toList_ofList, List.length_take]
  exact Nat.min_le_left _ _

theorem length_invalidReason {key value reason : String} (h : invalidReason key value = some reason) :
    reason.toList.length ≤ 32 := by
  unfold invalidReason at h
  split_ifs at h <;> cases h <;> decide

/-- What is classified fits into its columns. -/
theorem fits_of_classified {declared : SortedMap String String} {tag : StoredTag}
    (h : tag ∈ classifyDeclaredTags declared) : tag.fits = true := by
  have hlimit : ∀ (drafts : List StoredTag) (seen : Nat), (∀ draft ∈ drafts, draft.fits = true) →
      ∀ tag ∈ limitValid seen drafts, tag.fits = true := by
    intro drafts
    induction drafts with
    | nil => exact fun _ _ tag htag => absurd htag List.not_mem_nil
    | cons draft drafts ih =>
      intro seen hdrafts tag htag
      have hdraft := hdrafts draft List.mem_cons_self
      have hrest := fun other hother => hdrafts other (.tail _ hother)
      rw [limitValid] at htag
      split at htag
      · rcases List.mem_cons.mp htag with rfl | htag
        · exact hdraft
        · exact ih seen hrest tag htag
      · split at htag
        · rcases List.mem_cons.mp htag with rfl | htag
          · rw [StoredTag.fits, Bool.and_eq_true] at hdraft ⊢
            exact ⟨hdraft.1, rfl⟩
          · exact ih seen hrest tag htag
        · rcases List.mem_cons.mp htag with rfl | htag
          · exact hdraft
          · exact ih (seen + 1) hrest tag htag
  refine hlimit _ 0 (fun draft hdraft => ?_) tag (mem_keepFirst h)
  obtain ⟨pair, -, rfl⟩ := List.mem_map.mp hdraft
  have hkey := length_cutChars pair.1 255
  have hvalue := length_cutChars pair.2 255
  simp only [StoredTag.fits, Bool.and_eq_true, decide_eq_true_eq]
  refine ⟨⟨hkey, hvalue⟩, ?_⟩
  rw [Option.all_eq_true]
  intro reason hreason
  exact decide_eq_true (length_invalidReason hreason)

theorem fits_version {version value : String} (h : normalizeSystemValue version = some value) :
    (systemTag "sys.version" value).fits = true := by
  rw [normalizeSystemValue] at h
  split at h
  · cases h
  · cases h
    have hlen : ((version.toList.take maxTagChars).map systemChar).length ≤ 63 := by
      rw [List.length_map, List.length_take]
      exact Nat.min_le_left _ _
    have hkey : "sys.version".toList.length ≤ 255 := by decide
    have hvalue : (String.ofList ((version.toList.take maxTagChars).map systemChar)).toList.length ≤ 255 := by
      rw [String.toList_ofList]
      omega
    rw [StoredTag.fits, Bool.and_eq_true, Bool.and_eq_true]
    exact ⟨⟨decide_eq_true hkey, decide_eq_true hvalue⟩, rfl⟩

section
variable {fold : String → String} {nodeId : String}

theorem insertStored_of_fits {tables : Tables} {tag : StoredTag} (h : tag.fits = true) :
    insertStored fold tables nodeId tag =
      some ⟨tables.nodes, insertTagBy fold padded tables.tags nodeId tag⟩ := by
  rw [insertStored, if_pos h]
  rfl

theorem foldlM_insertStored {tags : List StoredTag} (h : ∀ tag ∈ tags, tag.fits = true)
    (tables : Tables) :
    tags.foldlM (fun tables tag => insertStored fold tables nodeId tag) tables =
      some ⟨tables.nodes, tags.foldl (fun rows tag => insertTagBy fold padded rows nodeId tag) tables.tags⟩ := by
  induction tags generalizing tables with
  | nil => rfl
  | cons tag tags ih =>
    rw [List.foldlM_cons, insertStored_of_fits (h tag List.mem_cons_self)]
    exact ih (fun other hother => h other (.tail _ hother)) _

/-- Rows that an insert does not meet stay in front. -/
theorem insertTags_base {base rows : List TagRow} {tags : List StoredTag}
    (h : ∀ row ∈ base, ∀ tag ∈ tags, ¬ row.holdsBy fold padded nodeId tag.source tag.key = true) :
    tags.foldl (fun rows tag => insertTagBy fold padded rows nodeId tag) (base ++ rows) =
      base ++ tags.foldl (fun rows tag => insertTagBy fold padded rows nodeId tag) rows := by
  induction tags generalizing rows with
  | nil => rfl
  | cons tag tags ih =>
    have hstep : insertTagBy fold padded (base ++ rows) nodeId tag =
        base ++ insertTagBy fold padded rows nodeId tag := by
      have hnone : base.any (·.holdsBy fold padded nodeId tag.source tag.key) = false := by
        rw [List.any_eq_false]
        exact fun row hrow => h row hrow tag List.mem_cons_self
      have hsame : (base.map fun row =>
          if row.holdsBy fold padded nodeId tag.source tag.key then
            (⟨row.nodeId, row.tag.key, tag.value, row.tag.source, tag.valid, tag.invalidReason⟩ : TagRow)
          else row) = base := by
        refine (List.map_congr_left fun row hrow => ?_).trans (List.map_id _)
        rw [if_neg (h row hrow tag List.mem_cons_self)]
        rfl
      unfold insertTagBy
      rw [List.any_append, hnone, Bool.false_or, List.map_append, hsame]
      split
      · rfl
      · rw [List.append_assoc]
    rw [List.foldl_cons, List.foldl_cons, hstep]
    exact ih fun row hrow other hother => h row hrow other (.tail _ hother)

/-- What an insert leaves was there before or has its node and its source. -/
theorem mem_insertTags {rows : List TagRow} {tags : List StoredTag} {source : Source}
    (hrows : ∀ row ∈ rows, row.nodeId = nodeId ∧ row.tag.source = source)
    (htags : ∀ tag ∈ tags, tag.source = source) :
    ∀ row ∈ tags.foldl (fun rows tag => insertTagBy fold padded rows nodeId tag) rows,
      row.nodeId = nodeId ∧ row.tag.source = source := by
  induction tags generalizing rows with
  | nil => exact hrows
  | cons tag tags ih =>
    refine ih (fun row hrow => ?_) fun other hother => htags other (.tail _ hother)
    have hrow : row ∈ insertTagBy fold padded rows nodeId tag := hrow
    rw [insertTagBy] at hrow
    split at hrow
    · obtain ⟨old, hold, rfl⟩ := List.mem_map.mp hrow
      split
      · exact hrows old hold
      · exact hrows old hold
    · rcases List.mem_append.mp hrow with hrow | hrow
      · exact hrows row hrow
      · rw [List.mem_singleton.mp hrow]
        exact ⟨rfl, htags tag List.mem_cons_self⟩

/-- A key that is there stays. -/
theorem held_insertTag {rows : List TagRow} {tag : StoredTag} {source : Source} {key : String}
    (h : rows.any (·.holdsBy fold padded nodeId source key) = true) :
    (insertTagBy fold padded rows nodeId tag).any (·.holdsBy fold padded nodeId source key) = true := by
  rw [insertTagBy]
  split
  · rw [List.any_map]
    refine Eq.trans ?_ h
    congr 1
    funext row
    rw [Function.comp_apply]
    split <;> rfl
  · rw [List.any_append, h]
    rfl

/-- The key of an insert is there. -/
theorem held_inserted (rows : List TagRow) (tag : StoredTag) :
    (insertTagBy fold padded rows nodeId tag).any (·.holdsBy fold padded nodeId tag.source tag.key) = true := by
  by_cases hheld : rows.any (·.holdsBy fold padded nodeId tag.source tag.key) = true
  · exact held_insertTag hheld
  · rw [insertTagBy, if_neg hheld, List.any_append]
    simp [holdsBy_iff]

theorem held_insertTags {tags : List StoredTag} {tag : StoredTag} (h : tag ∈ tags) (rows : List TagRow) :
    (tags.foldl (fun rows tag => insertTagBy fold padded rows nodeId tag) rows).any
      (·.holdsBy fold padded nodeId tag.source tag.key) = true := by
  have hkeep : ∀ (tags : List StoredTag) (rows : List TagRow),
      rows.any (·.holdsBy fold padded nodeId tag.source tag.key) = true →
        (tags.foldl (fun rows tag => insertTagBy fold padded rows nodeId tag) rows).any
          (·.holdsBy fold padded nodeId tag.source tag.key) = true := by
    intro tags
    induction tags with
    | nil => exact fun rows hrows => hrows
    | cons first tags ih => exact fun rows hrows => ih _ (held_insertTag hrows)
  induction tags generalizing rows with
  | nil => exact absurd h List.not_mem_nil
  | cons first tags ih =>
    rcases List.mem_cons.mp h with rfl | h
    · exact hkeep tags _ (held_inserted rows tag)
    · exact ih h _

end

/-! ## What a backfill creates -/

section
variable (fold : String → String)

def declaredInserts (node : Node) : List TagRow :=
  (classifyDeclaredTags node.labels).foldl (fun rows tag => insertTagBy fold padded rows node.nodeId tag) []

def versionTag (version : String) : Option StoredTag :=
  if version = "" ∨ version = "http-admin" then none
  else (normalizeSystemValue version).map (systemTag "sys.version")

/-- The rows that a backfill adds for a node. -/
def created (tags : List TagRow) (node : Node) : List TagRow :=
  (if hasDeclared fold tags node.nodeId then [] else declaredInserts fold node) ++
    if hasVersion fold tags node.nodeId then []
    else (versionTag node.version).toList.map (TagRow.mk node.nodeId)

variable {fold}

theorem hasDeclared_iff {tags : List TagRow} {nodeId : String} :
    hasDeclared fold tags nodeId = true ↔
      ∃ row ∈ tags, fold row.nodeId = fold nodeId ∧ row.tag.source = .node := by
  simp only [hasDeclared, List.any_eq_true, Bool.and_eq_true, sameNode_iff, beq_iff_eq]

theorem hasVersion_iff {tags : List TagRow} {nodeId : String} :
    hasVersion fold tags nodeId = true ↔ ∃ row ∈ tags, fold row.nodeId = fold nodeId ∧
      row.tag.source = .system ∧ padded row.tag.key = padded "sys.version" := by
  simp only [hasVersion, List.any_eq_true, holdsBy_iff]

theorem mem_declaredInserts {node : Node} {row : TagRow} (h : row ∈ declaredInserts fold node) :
    row.nodeId = node.nodeId ∧ row.tag.source = .node :=
  mem_insertTags (fun _ hrow => absurd hrow List.not_mem_nil)
    (fun _ htag => (classifyDeclaredTags_formed htag).1) row h

theorem declaredInserts_nil {node : Node} (h : node.labels.entries = []) : declaredInserts fold node = [] := by
  rw [declaredInserts, classifyDeclaredTags, h]
  rfl

theorem classified_ne_nil {labels : SortedMap String String} (h : labels.entries ≠ []) :
    ∃ tag, tag ∈ classifyDeclaredTags labels := by
  obtain ⟨pair, rest, hentries⟩ := List.exists_cons_of_ne_nil h
  have hkey : pair.1 ∈ labels.keys := by
    rw [SortedMap.keys, hentries]
    exact List.mem_cons_self
  obtain ⟨tag, htag, -⟩ := List.mem_map.mp (mem_classified_keys.mpr ⟨pair.1, hkey, rfl⟩)
  exact ⟨tag, htag⟩

/-- Once its labels are inserted, a node has declared rows. -/
theorem hasDeclared_inserts {node : Node} (h : node.labels.entries ≠ []) :
    hasDeclared fold (declaredInserts fold node) node.nodeId = true := by
  obtain ⟨tag, htag⟩ := classified_ne_nil h
  have hheld := @held_insertTags fold node.nodeId _ _ htag []
  obtain ⟨row, hrow, hholds⟩ := List.any_eq_true.mp hheld
  exact hasDeclared_iff.mpr ⟨row, hrow, (holdsBy_iff.mp hholds).1, (mem_declaredInserts hrow).2⟩

theorem mem_created {tags : List TagRow} {node : Node} {row : TagRow} (h : row ∈ created fold tags node) :
    row.nodeId = node.nodeId := by
  rw [created, List.mem_append] at h
  rcases h with h | h
  · split at h
    · cases h
    · exact (mem_declaredInserts h).1
  · split at h
    · cases h
    · obtain ⟨tag, -, rfl⟩ := List.mem_map.mp h
      rfl

/-- The labels are inserted behind the rows that are there. -/
theorem backfillDeclared_eq (tables : Tables) (node : Node) :
    backfillDeclared fold tables node = some ⟨tables.nodes, tables.tags ++
      if hasDeclared fold tables.tags node.nodeId then [] else declaredInserts fold node⟩ := by
  rw [backfillDeclared]
  split
  · rw [List.append_nil]
  · next hnone =>
    split
    · next hempty => rw [declaredInserts_nil hempty, List.append_nil]
    · have hbase : ∀ row ∈ tables.tags, ∀ tag ∈ classifyDeclaredTags node.labels,
          ¬ row.holdsBy fold padded node.nodeId tag.source tag.key = true := by
        intro row hrow tag htag hholds
        obtain ⟨hnode, hsource, -⟩ := holdsBy_iff.mp hholds
        rw [(classifyDeclaredTags_formed htag).1] at hsource
        exact hnone (hasDeclared_iff.mpr ⟨row, hrow, hnode, hsource⟩)
      have hinserts := @insertTags_base fold node.nodeId _ [] _ hbase
      rw [List.append_nil] at hinserts
      rw [foldlM_insertStored fun _ htag => fits_of_classified htag, hinserts]
      rfl

/-- Declared rows do not count as the version. -/
theorem hasVersion_append {tags more : List TagRow} {nodeId : String}
    (h : ∀ row ∈ more, row.tag.source = .node) :
    hasVersion fold (tags ++ more) nodeId = hasVersion fold tags nodeId := by
  have hnone : hasVersion fold more nodeId = false := by
    rw [← Bool.not_eq_true, hasVersion_iff]
    rintro ⟨row, hrow, -, hsource, -⟩
    rw [h row hrow] at hsource
    cases hsource
  rw [hasVersion, List.any_append, ← hasVersion, ← hasVersion, hnone, Bool.or_false]

theorem backfillVersion_eq (tables : Tables) (node : Node) :
    backfillVersion fold tables node = some ⟨tables.nodes, tables.tags ++
      if hasVersion fold tables.tags node.nodeId then []
      else (versionTag node.version).toList.map (TagRow.mk node.nodeId)⟩ := by
  rw [backfillVersion]
  cases hversion : hasVersion fold tables.tags node.nodeId with
  | true => simp
  | false =>
    by_cases hskip : node.version = "" ∨ node.version = "http-admin"
    · rw [versionTag, if_pos hskip]
      rcases hskip with hskip | hskip <;> simp [hskip]
    · rw [versionTag, if_neg hskip]
      rw [not_or] at hskip
      cases hvalue : normalizeSystemValue node.version with
      | none => simp [hskip]
      | some value =>
        have hnew : ¬ tables.tags.any (·.holdsBy fold padded node.nodeId .system "sys.version") = true := by
          rw [← hasVersion, hversion]
          exact Bool.false_ne_true
        have hinsert : insertTagBy fold padded tables.tags node.nodeId (systemTag "sys.version" value) =
            tables.tags ++ [⟨node.nodeId, systemTag "sys.version" value⟩] := if_neg hnew
        simp [hskip, insertStored_of_fits (fits_version hvalue), hinsert]

/-- The backfill of a node adds rows behind those that are there. -/
theorem backfillOne_eq (tables : Tables) (node : Node) :
    backfillOne fold tables node = some ⟨tables.nodes, tables.tags ++ created fold tables.tags node⟩ := by
  have hsource : ∀ row ∈ (if hasDeclared fold tables.tags node.nodeId then []
      else declaredInserts fold node), row.tag.source = .node := by
    intro row hrow
    split at hrow
    · cases hrow
    · exact (mem_declaredInserts hrow).2
  rw [backfillOne, backfillDeclared_eq, Option.bind_some, backfillVersion_eq, hasVersion_append hsource,
    created, List.append_assoc]

/-- Rows of other nodes do not count. -/
theorem created_append {tags more : List TagRow} {node : Node}
    (h : ∀ row ∈ more, fold row.nodeId ≠ fold node.nodeId) :
    created fold (tags ++ more) node = created fold tags node := by
  have hdeclared : hasDeclared fold (tags ++ more) node.nodeId = hasDeclared fold tags node.nodeId := by
    have hnone : hasDeclared fold more node.nodeId = false := by
      rw [← Bool.not_eq_true, hasDeclared_iff]
      rintro ⟨row, hrow, hnode, -⟩
      exact h row hrow hnode
    rw [hasDeclared, List.any_append, ← hasDeclared, ← hasDeclared, hnone, Bool.or_false]
  have hversion : hasVersion fold (tags ++ more) node.nodeId = hasVersion fold tags node.nodeId := by
    have hnone : hasVersion fold more node.nodeId = false := by
      rw [← Bool.not_eq_true, hasVersion_iff]
      rintro ⟨row, hrow, hnode, -⟩
      exact h row hrow hnode
    rw [hasVersion, List.any_append, ← hasVersion, ← hasVersion, hnone, Bool.or_false]
  rw [created, created, hdeclared, hversion]

/-- Nodes that the table can hold together. -/
def DistinctNodes (fold : String → String) (nodes : List Node) : Prop :=
  nodes.Pairwise fun a b => fold a.nodeId ≠ fold b.nodeId

/-- A backfill adds what it creates for each node. -/
theorem backfill_eq (tables : Tables) (h : DistinctNodes fold tables.nodes) :
    backfill fold tables =
      some ⟨tables.nodes, tables.tags ++ tables.nodes.flatMap (created fold tables.tags)⟩ := by
  have hrun : ∀ (nodes : List Node) (more : List TagRow), DistinctNodes fold nodes →
      (∀ row ∈ more, ∀ node ∈ nodes, fold row.nodeId ≠ fold node.nodeId) →
      nodes.foldlM (backfillOne fold) ⟨tables.nodes, tables.tags ++ more⟩ =
        some ⟨tables.nodes, tables.tags ++ (more ++ nodes.flatMap (created fold tables.tags))⟩ := by
    intro nodes
    induction nodes with
    | nil =>
      intro more _ _
      rw [List.flatMap_nil, List.append_nil]
      rfl
    | cons node nodes ih =>
      intro more hdistinct hmore
      obtain ⟨hfirst, hrest⟩ := List.pairwise_cons.mp hdistinct
      have hcreated := @created_append fold tables.tags more node
        fun row hrow => hmore row hrow node List.mem_cons_self
      rw [List.foldlM_cons, backfillOne_eq, hcreated, List.append_assoc]
      refine (ih (more ++ created fold tables.tags node) hrest ?_).trans ?_
      · intro row hrow other hother
        rcases List.mem_append.mp hrow with hrow | hrow
        · exact hmore row hrow other (.tail _ hother)
        · rw [mem_created hrow]
          exact hfirst other hother
      · rw [List.flatMap_cons, List.append_assoc]
  have hall := hrun tables.nodes [] h fun row hrow => absurd hrow List.not_mem_nil
  rw [List.append_nil, List.nil_append] at hall
  exact hall

/-- There is nothing to create for a node that has its rows or needs none. -/
theorem created_nil {tags : List TagRow} {node : Node}
    (hdeclared : hasDeclared fold tags node.nodeId = true ∨ node.labels.entries = [])
    (hversion : hasVersion fold tags node.nodeId = true ∨ versionTag node.version = none) :
    created fold tags node = [] := by
  have hfirst : (if hasDeclared fold tags node.nodeId then [] else declaredInserts fold node) = [] := by
    rcases hdeclared with hdeclared | hdeclared
    · rw [if_pos hdeclared]
    · rw [declaredInserts_nil hdeclared, ite_self]
  have hsecond : (if hasVersion fold tags node.nodeId then []
      else (versionTag node.version).toList.map (TagRow.mk node.nodeId)) = [] := by
    rcases hversion with hversion | hversion
    · rw [if_pos hversion]
    · rw [hversion]
      exact ite_self _
  rw [created, hfirst, hsecond, List.append_nil]

/-- Once what a backfill creates for a node is there, it creates nothing for it. -/
theorem created_again {tags more : List TagRow} {node : Node}
    (h : ∀ row ∈ created fold tags node, row ∈ more) : created fold (tags ++ more) node = [] := by
  refine created_nil ?_ ?_
  · by_cases hlabels : node.labels.entries = []
    · exact .inr hlabels
    · left
      rw [hasDeclared, List.any_append, ← hasDeclared, ← hasDeclared, Bool.or_eq_true]
      by_cases hold : hasDeclared fold tags node.nodeId = true
      · exact .inl hold
      · right
        obtain ⟨row, hrow, hnode, hsource⟩ := hasDeclared_iff.mp (@hasDeclared_inserts fold node hlabels)
        refine hasDeclared_iff.mpr ⟨row, h row ?_, hnode, hsource⟩
        rw [created, if_neg hold]
        exact List.mem_append_left _ hrow
  · cases htag : versionTag node.version with
    | none => exact .inr rfl
    | some tag =>
      left
      rw [hasVersion, List.any_append, ← hasVersion, ← hasVersion, Bool.or_eq_true]
      by_cases hold : hasVersion fold tags node.nodeId = true
      · exact .inl hold
      · right
        have hkey : tag.source = .system ∧ tag.key = "sys.version" := by
          rw [versionTag] at htag
          split at htag
          · cases htag
          · obtain ⟨value, -, rfl⟩ := Option.map_eq_some_iff.mp htag
            exact ⟨rfl, rfl⟩
        refine hasVersion_iff.mpr ⟨⟨node.nodeId, tag⟩, h _ ?_, rfl, hkey.1, by rw [hkey.2]⟩
        rw [created, if_neg hold, htag]
        exact List.mem_append_right _ (List.mem_singleton.mpr rfl)

/-! ## The rows of a node -/

def rowsOf (fold : String → String) (nodeId : String) (rows : List TagRow) : List TagRow :=
  rows.filter fun row => sameNode fold row.nodeId nodeId

theorem rowsOf_created {tags : List TagRow} {node : Node} {nodeId : String}
    (h : fold node.nodeId ≠ fold nodeId) : rowsOf fold nodeId (created fold tags node) = [] := by
  rw [rowsOf, List.filter_eq_nil_iff]
  intro row hrow hsame
  rw [sameNode_iff, mem_created hrow] at hsame
  exact h hsame

/-- What is created for a node, among what is created for all. -/
theorem rowsOf_flatMap {tags : List TagRow} {nodes : List Node} (hdistinct : DistinctNodes fold nodes)
    {node : Node} (h : node ∈ nodes) :
    rowsOf fold node.nodeId (nodes.flatMap (created fold tags)) = created fold tags node := by
  have hself : rowsOf fold node.nodeId (created fold tags node) = created fold tags node := by
    rw [rowsOf, List.filter_eq_self]
    intro row hrow
    rw [sameNode_iff, mem_created hrow]
  have hothers : ∀ nodes : List Node, (∀ other ∈ nodes, fold other.nodeId ≠ fold node.nodeId) →
      rowsOf fold node.nodeId (nodes.flatMap (created fold tags)) = [] := by
    intro nodes hnodes
    rw [rowsOf, List.filter_flatMap, List.flatMap_eq_nil_iff]
    exact fun other hother => rowsOf_created (hnodes other hother)
  induction nodes with
  | nil => exact absurd h List.not_mem_nil
  | cons first nodes ih =>
    obtain ⟨hfirst, hrest⟩ := List.pairwise_cons.mp hdistinct
    rw [List.flatMap_cons, rowsOf, List.filter_append, ← rowsOf, ← rowsOf]
    rcases List.mem_cons.mp h with rfl | h
    · rw [hself, hothers nodes fun other hother => Ne.symm (hfirst other hother), List.append_nil]
    · rw [rowsOf_created (hfirst node h), ih hrest h, List.nil_append]

theorem declaredRows_eq (nodeId : String) (rows : List TagRow) :
    declaredRows fold nodeId rows = (rowsOf fold nodeId rows).filter (·.tag.source == .node) := by
  rw [declaredRows, rowsOf, List.filter_filter]
  refine List.filter_congr fun row _ => ?_
  exact Bool.and_comm _ _

/-- A node without declared rows gets those of its labels. -/
theorem declaredRows_backfill {tables : Tables} (hdistinct : DistinctNodes fold tables.nodes)
    {node : Node} (h : node ∈ tables.nodes) (hnone : hasDeclared fold tables.tags node.nodeId = false) :
    declaredRows fold node.nodeId (tables.tags ++ tables.nodes.flatMap (created fold tables.tags)) =
      declaredInserts fold node := by
  have hold : declaredRows fold node.nodeId tables.tags = [] := by
    rw [declaredRows, List.filter_eq_nil_iff]
    intro row hrow hmine
    rw [Bool.and_eq_true, sameNode_iff, beq_iff_eq] at hmine
    rw [← Bool.not_eq_true, hasDeclared_iff] at hnone
    exact hnone ⟨row, hrow, hmine⟩
  have hinserts : (declaredInserts fold node).filter (·.tag.source == .node) = declaredInserts fold node := by
    rw [List.filter_eq_self]
    intro row hrow
    rw [(mem_declaredInserts hrow).2]
    rfl
  have hversion : (if hasVersion fold tables.tags node.nodeId then []
      else (versionTag node.version).toList.map (TagRow.mk node.nodeId)).filter
        (·.tag.source == .node) = [] := by
    split
    · rfl
    · rw [List.filter_eq_nil_iff]
      intro row hrow
      obtain ⟨tag, htag, rfl⟩ := List.mem_map.mp hrow
      rw [Option.mem_toList, versionTag] at htag
      split at htag
      · cases htag
      · obtain ⟨value, -, rfl⟩ := Option.map_eq_some_iff.mp htag
        exact Bool.false_ne_true
  rw [declaredRows, List.filter_append, ← declaredRows, ← declaredRows, hold, List.nil_append,
    declaredRows_eq, rowsOf_flatMap hdistinct h, created, hnone, if_neg Bool.false_ne_true,
    List.filter_append, hinserts, hversion, List.append_nil]

/-- The labels end in rows of their own exactly when no two of their keys meet. -/
theorem declaredInserts_iff {node : Node} :
    (declaredInserts fold node).map (·.tag) = classifyDeclaredTags node.labels ↔ Apart node.labels := by
  rw [apart_iff]
  constructor
  · intro h
    have hkeys : (declaredKeys fold padded node.nodeId (declaredInserts fold node)).Nodup := by
      have hrun : ∀ (tags : List StoredTag) (rows : List TagRow),
          (declaredKeys fold padded node.nodeId rows).Nodup →
            (declaredKeys fold padded node.nodeId
              (tags.foldl (fun rows tag => insertTagBy fold padded rows node.nodeId tag) rows)).Nodup := by
        intro tags
        induction tags with
        | nil => exact fun rows hrows => hrows
        | cons tag tags ih => exact fun rows hrows => ih _ (declaredKeys_insertTag hrows)
      exact hrun _ [] List.nodup_nil
    have hall : (declaredInserts fold node).filter (fun row => sameNode fold row.nodeId node.nodeId &&
        row.tag.source == .node) = declaredInserts fold node := by
      rw [List.filter_eq_self]
      intro row hrow
      obtain ⟨hnode, hsource⟩ := mem_declaredInserts hrow
      rw [Bool.and_eq_true, sameNode_iff, beq_iff_eq, hnode]
      exact ⟨rfl, hsource⟩
    rw [declaredKeys, hall] at hkeys
    rw [← h, List.map_map]
    exact hkeys
  · intro h
    have hinserts := @insertTags_append _ _ _ fold padded node.nodeId [] (classifyDeclaredTags node.labels)
      (fun row hrow => absurd hrow List.not_mem_nil)
      ((List.pairwise_map.mp h).imp fun hne heq => hne heq.2)
    rw [declaredInserts, hinserts, List.nil_append, List.map_map]
    exact List.map_id _

/-! ## After a registration -/

theorem upserted {nodes : List Node} {node found : Node} (h : found ∈ upsertNode fold nodes node)
    (hsame : fold found.nodeId = fold node.nodeId) :
    found.version = node.version ∧ found.labels = node.labels := by
  rw [upsertNode] at h
  split at h
  · obtain ⟨old, hold, rfl⟩ := List.mem_map.mp h
    split
    · exact ⟨rfl, rfl⟩
    · next hother =>
      rw [if_neg hother] at hsame
      exact absurd (sameNode_iff.mpr hsame) hother
  · next hnew =>
    rcases List.mem_append.mp h with h | h
    · exact absurd (List.any_eq_true.mpr ⟨found, h, sameNode_iff.mpr hsame⟩) hnew
    · rw [List.mem_singleton.mp h]
      exact ⟨rfl, rfl⟩

/-- A backfill creates nothing for a node that has just registered. -/
theorem created_registered {registration : Registration} {tables : Tables} {node : Node}
    (h : node ∈ (registerNodeOnce fold registration tables).1.nodes)
    (hsame : fold node.nodeId = fold registration.nodeId) :
    created fold (registerNodeOnce fold registration tables).1.tags node = [] := by
  rw [registerNodeOnce, writes_foldl] at h ⊢
  obtain ⟨hversion, hlabels⟩ := upserted h hsame
  dsimp only
  have hheld : ∀ tag ∈ registration.tags, ∃ row ∈ registration.tags.foldl
      (fun rows tag => insertTagBy fold padded rows registration.nodeId tag)
      (keptRows fold registration.nodeId tables.tags),
      fold row.nodeId = fold node.nodeId ∧ row.tag.source = tag.source ∧
        padded row.tag.key = padded tag.key := by
    intro tag htag
    obtain ⟨row, hrow, hholds⟩ := List.any_eq_true.mp (@held_insertTags fold registration.nodeId _ _ htag _)
    obtain ⟨hnode, hsource, hkey⟩ := holdsBy_iff.mp hholds
    exact ⟨row, hrow, hnode.trans hsame.symm, hsource, hkey⟩
  refine created_nil ?_ ?_
  · rw [hlabels]
    by_cases hempty : registration.declared.entries = []
    · exact .inr hempty
    · obtain ⟨tag, htag⟩ := classified_ne_nil hempty
      obtain ⟨row, hrow, hnode, hsource, -⟩ := hheld tag (List.mem_append_left _ htag)
      exact .inl (hasDeclared_iff.mpr ⟨row, hrow, hnode, hsource.trans (classifyDeclaredTags_formed htag).1⟩)
  · rw [hversion]
    cases htag : versionTag registration.version with
    | none => exact .inr rfl
    | some tag =>
      rw [versionTag] at htag
      split at htag
      · cases htag
      · obtain ⟨value, hvalue, rfl⟩ := Option.map_eq_some_iff.mp htag
        have hmem : systemTag "sys.version" value ∈ registration.tags := by
          refine List.mem_append_right _ (List.mem_append_left _ (List.mem_append_left _ ?_))
          rw [hvalue]
          exact List.mem_singleton.mpr rfl
        obtain ⟨row, hrow, hnode, hsource, hkey⟩ := hheld _ hmem
        exact .inl (hasVersion_iff.mpr ⟨row, hrow, hnode, hsource, hkey⟩)

/-! ## The backfill -/

/-- Tables whose nodes have different ids. -/
structure StoredTables (fold : String → String) where
  tables : Tables
  distinct : DistinctNodes fold tables.nodes

/-- What a backfill is to do.  It ends, with every row that was there.  A second one changes nothing,
and neither does one after a registration for the node that registered.  A node without declared rows
gets those of its labels. -/
structure Backfills (fold : String → String) (tables after : Tables) : Prop where
  run : backfill fold tables = some after
  nodes : after.nodes = tables.nodes
  kept : tables.tags <+: after.tags
  again : backfill fold after = some after
  registered : ∀ registration, ∃ after,
    backfill fold (registerNodeOnce fold registration tables).1 = some after ∧
      rowsOf fold registration.nodeId after.tags =
        rowsOf fold registration.nodeId (registerNodeOnce fold registration tables).1.tags
  labels : ∀ node ∈ tables.nodes, hasDeclared fold tables.tags node.nodeId = false →
    (declaredRows fold node.nodeId after.tags).map (·.tag) = classifyDeclaredTags node.labels

theorem backfill_again {tables : Tables} (h : DistinctNodes fold tables.nodes) :
    backfill fold ⟨tables.nodes, tables.tags ++ tables.nodes.flatMap (created fold tables.tags)⟩ =
      some ⟨tables.nodes, tables.tags ++ tables.nodes.flatMap (created fold tables.tags)⟩ := by
  have hnone : tables.nodes.flatMap
      (created fold (tables.tags ++ tables.nodes.flatMap (created fold tables.tags))) = [] := by
    rw [List.flatMap_eq_nil_iff]
    intro node hnode
    exact created_again fun row hrow => List.mem_flatMap.mpr ⟨node, hnode, hrow⟩
  have hrun := backfill_eq
    (⟨tables.nodes, tables.tags ++ tables.nodes.flatMap (created fold tables.tags)⟩ : Tables) h
  rw [hrun]
  dsimp only
  rw [hnone, List.append_nil]

theorem backfill_registered {tables : Tables} (h : DistinctNodes fold tables.nodes)
    (registration : Registration) : ∃ after,
      backfill fold (registerNodeOnce fold registration tables).1 = some after ∧
        rowsOf fold registration.nodeId after.tags =
          rowsOf fold registration.nodeId (registerNodeOnce fold registration tables).1.tags := by
  have hdistinct : DistinctNodes fold (registerNodeOnce fold registration tables).1.nodes := by
    rw [registerNodeOnce, writes_foldl]
    exact upsertNode_distinct h
  refine ⟨_, backfill_eq _ hdistinct, ?_⟩
  have hnone : rowsOf fold registration.nodeId ((registerNodeOnce fold registration tables).1.nodes.flatMap
      (created fold (registerNodeOnce fold registration tables).1.tags)) = [] := by
    rw [rowsOf, List.filter_flatMap, List.flatMap_eq_nil_iff]
    intro node hnode
    by_cases hsame : fold node.nodeId = fold registration.nodeId
    · rw [created_registered hnode hsame]
      rfl
    · exact rowsOf_created hsame
  rw [rowsOf, List.filter_append, ← rowsOf, ← rowsOf, hnone, List.append_nil]

/-- The backfill does what it is to do exactly when no two keys meet among the labels of a node that
has no declared rows. -/
theorem backfills_iff (stored : StoredTables fold) :
    (∃ after, Backfills fold stored.tables after) ↔
      ∀ node ∈ stored.tables.nodes, hasDeclared fold stored.tables.tags node.nodeId = false →
        Apart node.labels := by
  have hrun := backfill_eq stored.tables stored.distinct
  constructor
  · rintro ⟨after, hafter⟩ node hnode hnone
    have hsame := hafter.run.symm.trans hrun
    cases hsame
    have hlabels := hafter.labels node hnode hnone
    dsimp only at hlabels
    rw [declaredRows_backfill stored.distinct hnode hnone] at hlabels
    exact declaredInserts_iff.mp hlabels
  · intro h
    refine ⟨_, hrun, rfl, List.prefix_append _ _, backfill_again stored.distinct,
      backfill_registered stored.distinct, fun node hnode hnone => ?_⟩
    dsimp only
    rw [declaredRows_backfill stored.distinct hnode hnone]
    exact declaredInserts_iff.mpr (h node hnode hnone)

end

/-! ## Labels that meet -/

def spacedLabels : StoredTables id :=
  ⟨⟨[⟨"node-1", "", .ofList [("a", "1"), ("a ", "2")]⟩], []⟩, List.pairwise_singleton _ _⟩

/-- Two labels end in one row, under the key of the first with the value of the second. -/
theorem labels_meet :
    (backfill id spacedLabels.tables).map (fun after => (declaredRows id "node-1" after.tags).map (·.tag)) =
        some [⟨"a", "2", .node, false, some "key_invalid"⟩] ∧
      ¬ ∃ after, Backfills id spacedLabels.tables after := by
  have hrows : (backfill id spacedLabels.tables).map
      (fun after => (declaredRows id "node-1" after.tags).map (·.tag)) =
        some [⟨"a", "2", .node, false, some "key_invalid"⟩] := by decide +kernel
  have hclassified : (classifyDeclaredTags (.ofList [("a", "1"), ("a ", "2")])).length = 2 := by
    decide +kernel
  refine ⟨hrows, ?_⟩
  rintro ⟨after, hafter⟩
  rw [hafter.run, Option.map_some] at hrows
  have hlabels := hafter.labels _ (List.mem_singleton.mpr rfl) rfl
  rw [Option.some.inj hrows] at hlabels
  have hlength := congrArg List.length hlabels
  rw [hclassified] at hlength
  cases hlength

end Novbot.Tags
