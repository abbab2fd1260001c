import Novbot.Tags.Stored

/-!
# Registration and the key comparison of the table

`register_node_once` deletes what a node reported before and inserts what it reports now.
The primary key of `node_tags` compares keys without the spaces at their end, and an insert
whose key is there already only updates the row.  So two declared keys that differ in such
spaces end in one row, under the first key with the second value.

`registered_iff` says that this is the only way to miss the declared tags.  Where no two keys
meet, the table is the one that `Registration.writes` gives under exact keys
(`registerNodeOnce_eq`).
-/

namespace Novbot.Tags

/-! ## Inserts under a comparison of keys -/

/-- A key without the spaces at its end. -/
def padded (key : String) : List Char := (key.toList.reverse.dropWhile (· == ' ')).reverse

section
variable {κ : Type} [BEq κ] (fold : String → String) (canon : String → κ)

def TagRow.holdsBy (row : TagRow) (nodeId : String) (source : Source) (key : String) : Bool :=
  sameNode fold row.nodeId nodeId && row.tag.source == source && canon row.tag.key == canon key

/-- `insert_tag`.  `ON DUPLICATE KEY UPDATE` keeps the primary key. -/
def insertTagBy (tags : List TagRow) (nodeId : String) (tag : StoredTag) : List TagRow :=
  if tags.any (·.holdsBy fold canon nodeId tag.source tag.key) then
    tags.map fun row =>
      if row.holdsBy fold canon nodeId tag.source tag.key then
        ⟨row.nodeId, row.tag.key, tag.value, row.tag.source, tag.valid, tag.invalidReason⟩
      else row
  else tags ++ [⟨nodeId, tag⟩]

def Write.applyBy (tables : Tables) : Write → Tables
  | .insertTag nodeId tag => { tables with tags := insertTagBy fold canon tables.tags nodeId tag }
  | write => write.apply fold tables

end

/-- Exact keys are one comparison. -/
theorem applyBy_id (fold : String → String) (tables : Tables) (write : Write) :
    write.applyBy fold id tables = write.apply fold tables := by
  cases write <;> rfl

/-! ## The audit event of a registration -/

abbrev Sig := SortedMap String (String × Bool × Option String)

def StoredTag.sigEntry (tag : StoredTag) : String × String × Bool × Option String :=
  (tag.key, tag.value, tag.valid, tag.invalidReason)

def nodeSig (rows : List StoredTag) : Sig :=
  .ofList ((rows.filter (·.source == .node)).map (·.sigEntry))

def declaredSig (tags : List StoredTag) : Sig := .ofList (tags.map (·.sigEntry))

structure ReportedTag where
  key : String
  value : String
  valid : Bool
  invalidReason : Option String
  deriving DecidableEq

structure ReportedChange where
  key : String
  oldValue : String
  newValue : String
  valid : Bool
  invalidReason : Option String
  deriving DecidableEq

/-- What `node_reported_detail` writes into the event. -/
structure ReportedDetail where
  added : List ReportedTag
  changed : List ReportedChange
  removed : List ReportedTag
  /-- Key, value and reason. -/
  invalid : List (String × String × Option String)
  deriving DecidableEq

def nodeReportedDetail (old new : Sig) : Option ReportedDetail :=
  if old = new then none
  else
    let keys := (SortedMap.ofList ((old.keys ++ new.keys).map fun key => (key, ()))).keys
    some {
      added := keys.filterMap fun key =>
        match old.lookup key, new.lookup key with
        | none, some (value, valid, reason) => some ⟨key, value, valid, reason⟩
        | _, _ => none
      changed := keys.filterMap fun key =>
        match old.lookup key, new.lookup key with
        | some before, some after =>
          if before = after then none
          else some ⟨key, before.1, after.1, after.2.1, after.2.2⟩
        | _, _ => none
      removed := keys.filterMap fun key =>
        match old.lookup key, new.lookup key with
        | some (value, valid, reason), none => some ⟨key, value, valid, reason⟩
        | _, _ => none
      invalid := new.entries.filterMap fun entry =>
        if entry.2.2.1 then none else some (entry.1, entry.2.1, entry.2.2.2) }

/-- The tables after `register_node_once`, and the detail of the event that it appends. -/
def registerNodeOnce (fold : String → String) (registration : Registration) (tables : Tables) :
    Tables × Option ReportedDetail :=
  let existing := fetchTags fold tables registration.nodeId
  (registration.writes.foldl (Write.applyBy fold padded) tables,
    nodeReportedDetail (nodeSig existing) (declaredSig (classifyDeclaredTags registration.declared)))

/-! ## What inserts leave -/

section
variable {κ : Type} [BEq κ] [LawfulBEq κ] {fold : String → String} {canon : String → κ}
  {nodeId : String}

theorem holdsBy_iff {row : TagRow} {key : String} {source : Source} :
    row.holdsBy fold canon nodeId source key = true ↔
      fold row.nodeId = fold nodeId ∧ row.tag.source = source ∧
        canon row.tag.key = canon key := by
  simp only [TagRow.holdsBy, Bool.and_eq_true, sameNode_iff, beq_iff_eq, and_assoc]

/-- Rows that meet no row are appended. -/
theorem insertTags_append {base : List TagRow} {tags : List StoredTag}
    (hbase : ∀ row ∈ base, ∀ tag ∈ tags, ¬ row.holdsBy fold canon nodeId tag.source tag.key = true)
    (htags : tags.Pairwise fun a b => ¬(a.source = b.source ∧ canon a.key = canon b.key)) :
    tags.foldl (fun rows tag => insertTagBy fold canon rows nodeId tag) base =
      base ++ tags.map (TagRow.mk nodeId) := by
  induction tags generalizing base with
  | nil => simp
  | cons tag tags ih =>
    obtain ⟨hfirst, hrest⟩ := List.pairwise_cons.mp htags
    have hnew : base.any (·.holdsBy fold canon nodeId tag.source tag.key) = false := by
      rw [List.any_eq_false]
      exact fun row hrow => hbase row hrow tag List.mem_cons_self
    rw [List.foldl_cons, insertTagBy, hnew, if_neg Bool.false_ne_true, ih _ hrest]
    · simp
    · intro row hrow later hlater
      rcases List.mem_append.mp hrow with hrow | hrow
      · exact hbase row hrow later (.tail _ hlater)
      · rw [List.mem_singleton.mp hrow, holdsBy_iff]
        rintro ⟨-, hsource, hkey⟩
        exact hfirst later hlater ⟨hsource, hkey⟩

/-- The keys of the rows that a node declared, as they are compared. -/
def declaredKeys (fold : String → String) (canon : String → κ) (nodeId : String)
    (rows : List TagRow) : List κ :=
  (rows.filter fun row => sameNode fold row.nodeId nodeId && row.tag.source == .node).map
    fun row => canon row.tag.key

/-- An insert never leaves two rows with one key. -/
theorem declaredKeys_insertTag {rows : List TagRow} {tag : StoredTag}
    (h : (declaredKeys fold canon nodeId rows).Nodup) :
    (declaredKeys fold canon nodeId (insertTagBy fold canon rows nodeId tag)).Nodup := by
  rw [insertTagBy]
  split
  · -- The keys are the same as before.
    rw [declaredKeys, List.filter_map, List.map_map]
    have hfilter : ((fun row : TagRow => sameNode fold row.nodeId nodeId &&
        row.tag.source == .node) ∘ fun row =>
          if row.holdsBy fold canon nodeId tag.source tag.key = true then
            (⟨row.nodeId, row.tag.key, tag.value, row.tag.source, tag.valid, tag.invalidReason⟩ :
              TagRow)
          else row) = fun row => sameNode fold row.nodeId nodeId && row.tag.source == .node := by
      funext row
      simp only [Function.comp_apply]
      split <;> rfl
    rw [hfilter]
    refine (congrArg List.Nodup (List.map_congr_left fun row _ => ?_)).mp h
    simp only [Function.comp_apply]
    split <;> rfl
  · next hnew =>
    rw [declaredKeys, List.filter_append, List.map_append]
    by_cases hnode : tag.source = .node
    · have hmine : ([(⟨nodeId, tag⟩ : TagRow)].filter fun row =>
          sameNode fold row.nodeId nodeId && row.tag.source == .node) = [⟨nodeId, tag⟩] := by
        simp [sameNode, hnode]
      rw [hmine, List.map_singleton]
      refine List.nodup_append.mpr ⟨h, List.nodup_singleton _, ?_⟩
      intro key hkey key' hkey' heq
      rw [List.mem_singleton.mp hkey'] at heq
      obtain ⟨row, hrow, rfl⟩ := List.mem_map.mp hkey
      obtain ⟨hrow, hmine⟩ := List.mem_filter.mp hrow
      rw [Bool.and_eq_true, sameNode_iff, beq_iff_eq] at hmine
      refine hnew (List.any_eq_true.mpr ⟨row, hrow, holdsBy_iff.mpr ⟨hmine.1, ?_, heq⟩⟩)
      rw [hmine.2, hnode]
    · have hnone : ([(⟨nodeId, tag⟩ : TagRow)].filter fun row =>
          sameNode fold row.nodeId nodeId && row.tag.source == .node) = [] := by
        simp [hnode]
      rw [hnone, List.map_nil, List.append_nil]
      exact h

end

/-! ## The rows of a registration -/

def Registration.tags (registration : Registration) : List StoredTag :=
  classifyDeclaredTags registration.declared ++
    systemTags registration.version registration.os registration.arch

/-- The rows that a registration does not delete. -/
def keptRows (fold : String → String) (nodeId : String) (rows : List TagRow) : List TagRow :=
  rows.filter fun row => !(sameNode fold row.nodeId nodeId && row.tag.source != .center)

section
variable {fold : String → String} {registration : Registration}

theorem writes_foldl {κ : Type} [BEq κ] (canon : String → κ) (tables : Tables) :
    registration.writes.foldl (Write.applyBy fold canon) tables =
      ⟨upsertNode fold tables.nodes
          ⟨registration.nodeId, registration.version, registration.declared⟩,
        registration.tags.foldl
          (fun rows tag => insertTagBy fold canon rows registration.nodeId tag)
          (keptRows fold registration.nodeId tables.tags)⟩ := by
  have hinserts : ∀ (tags : List StoredTag) (tables : Tables),
      (tags.map (Write.insertTag registration.nodeId)).foldl (Write.applyBy fold canon) tables =
        ⟨tables.nodes, tags.foldl
          (fun rows tag => insertTagBy fold canon rows registration.nodeId tag) tables.tags⟩ := by
    intro tags
    induction tags with
    | nil => exact fun tables => rfl
    | cons tag tags ih => exact fun tables => ih _
  rw [Registration.writes, List.foldl_cons, List.foldl_cons]
  exact hinserts registration.tags _

theorem source_of_mem_tags {tag : StoredTag} (h : tag ∈ registration.tags) :
    tag.source ≠ .center := by
  rcases List.mem_append.mp h with h | h
  · rw [(classifyDeclaredTags_formed h).1]
    exact Source.noConfusion
  · rw [(systemTags_formed h).1]
    exact Source.noConfusion

/-- None of the rows that are kept meets a tag of the registration. -/
theorem keptRows_apart {κ : Type} [BEq κ] [LawfulBEq κ] {canon : String → κ} {rows : List TagRow}
    {row : TagRow} (hrow : row ∈ keptRows fold registration.nodeId rows) {tag : StoredTag}
    (htag : tag ∈ registration.tags) :
    ¬ row.holdsBy fold canon registration.nodeId tag.source tag.key = true := by
  intro hheld
  obtain ⟨hnode, hsource, -⟩ := holdsBy_iff.mp hheld
  have hkept := (List.mem_filter.mp hrow).2
  have hother : row.tag.source ≠ .center := hsource ▸ source_of_mem_tags htag
  simp [sameNode_iff.mpr hnode, hother] at hkept

/-! ## The keys of the declared tags -/

theorem limitValid_keys (drafts : List StoredTag) (validSeen : Nat) :
    (limitValid validSeen drafts).map (·.key) = drafts.map (·.key) := by
  induction drafts generalizing validSeen with
  | nil => rfl
  | cons draft drafts ih =>
    rw [limitValid]
    split
    · rw [List.map_cons, List.map_cons, ih]
    · split
      · rw [List.map_cons, List.map_cons, ih]
      · rw [List.map_cons, List.map_cons, ih]

theorem mem_keepFirst_keys {drafts : List StoredTag} {seen : List String} {key : String} :
    key ∈ (keepFirst seen drafts).map (·.key) ↔ key ∈ drafts.map (·.key) ∧ key ∉ seen := by
  induction drafts generalizing seen with
  | nil => simp [keepFirst]
  | cons draft drafts ih =>
    rw [keepFirst]
    split
    · next hseen =>
      rw [ih, List.map_cons, List.mem_cons]
      constructor
      · exact fun h => ⟨.inr h.1, h.2⟩
      · rintro ⟨rfl | h, hnot⟩
        · exact absurd hseen hnot
        · exact ⟨h, hnot⟩
    · next hseen =>
      rw [List.map_cons, List.mem_cons, ih, List.map_cons, List.mem_cons, List.mem_cons]
      constructor
      · rintro (rfl | ⟨h, hnot⟩)
        · exact ⟨.inl rfl, hseen⟩
        · exact ⟨.inr h, fun hmem => hnot (.inr hmem)⟩
      · rintro ⟨rfl | h, hnot⟩
        · exact .inl rfl
        · by_cases hkey : key = draft.key
          · exact .inl hkey
          · exact .inr ⟨h, fun hmem => hmem.elim hkey hnot⟩

theorem keepFirst_nodup (drafts : List StoredTag) (seen : List String) :
    ((keepFirst seen drafts).map (·.key)).Nodup := by
  induction drafts generalizing seen with
  | nil => exact List.nodup_nil
  | cons draft drafts ih =>
    rw [keepFirst]
    split
    · exact ih seen
    · refine List.nodup_cons.mpr ⟨fun hmem => ?_, ih _⟩
      exact (mem_keepFirst_keys.mp hmem).2 List.mem_cons_self

/-- The keys of the rows are the declared ones, cut. -/
theorem mem_classified_keys {declared : SortedMap String String} {key : String} :
    key ∈ (classifyDeclaredTags declared).map (·.key) ↔
      ∃ name ∈ declared.keys, cutChars name maxStoredChars = key := by
  rw [classifyDeclaredTags, mem_keepFirst_keys, limitValid_keys]
  simp [SortedMap.keys, classifyOne]

/-- No two declared keys meet: where they differ once they are cut, it is not only in spaces
at their end. -/
def Apart (declared : SortedMap String String) : Prop :=
  ∀ a ∈ declared.keys, ∀ b ∈ declared.keys,
    padded (cutChars a maxStoredChars) = padded (cutChars b maxStoredChars) →
      cutChars a maxStoredChars = cutChars b maxStoredChars

theorem apart_iff {declared : SortedMap String String} :
    Apart declared ↔ ((classifyDeclaredTags declared).map fun tag => padded tag.key).Nodup := by
  have hkeys : ((classifyDeclaredTags declared).map (·.key)).Nodup := keepFirst_nodup _ _
  have hcompose : ((classifyDeclaredTags declared).map fun tag => padded tag.key) =
      ((classifyDeclaredTags declared).map (·.key)).map padded := by rw [List.map_map]; rfl
  rw [hcompose]
  constructor
  · intro hapart
    refine List.Nodup.map_on (fun a ha b hb heq => ?_) hkeys
    obtain ⟨name, hname, rfl⟩ := mem_classified_keys.mp ha
    obtain ⟨name', hname', rfl⟩ := mem_classified_keys.mp hb
    exact hapart name hname name' hname' heq
  · intro hnodup a ha b hb heq
    exact List.inj_on_of_nodup_map hnodup (mem_classified_keys.mpr ⟨a, ha, rfl⟩)
      (mem_classified_keys.mpr ⟨b, hb, rfl⟩) heq

theorem systemTags_distinct (version os arch : String) :
    (systemTags version os arch).Pairwise fun a b => padded a.key ≠ padded b.key := by
  have hne : padded "sys.version" ≠ padded "sys.os" ∧ padded "sys.version" ≠ padded "sys.arch" ∧
      padded "sys.os" ≠ padded "sys.arch" := by decide
  rw [systemTags]
  cases normalizeSystemValue version <;> cases normalizeSystemValue os <;>
    cases normalizeSystemValue arch <;> simp [systemTag, hne]

theorem tags_distinct (h : Apart registration.declared) :
    registration.tags.Pairwise fun a b => ¬(a.source = b.source ∧ padded a.key = padded b.key) := by
  refine List.pairwise_append.mpr ⟨?_, ?_, ?_⟩
  · exact (List.pairwise_map.mp (apart_iff.mp h)).imp fun hne heq => hne heq.2
  · exact (systemTags_distinct _ _ _).imp fun hne heq => hne heq.2
  · intro a ha b hb heq
    have hsource := heq.1
    rw [(classifyDeclaredTags_formed ha).1, (systemTags_formed hb).1] at hsource
    cases hsource

/-! ## What a registration leaves -/

theorem registered_tags {κ : Type} [BEq κ] [LawfulBEq κ] {canon : String → κ}
    (fold : String → String) (tables : Tables)
    (h : registration.tags.Pairwise fun a b => ¬(a.source = b.source ∧ canon a.key = canon b.key)) :
    (registration.writes.foldl (Write.applyBy fold canon) tables).tags =
      keptRows fold registration.nodeId tables.tags ++
        registration.tags.map (TagRow.mk registration.nodeId) := by
  rw [writes_foldl]
  exact insertTags_append (fun row hrow tag htag => keptRows_apart hrow htag) h

/-- Where no keys meet, the comparison of keys does not matter. -/
theorem registerNodeOnce_eq (h : Apart registration.declared) (tables : Tables) :
    (registerNodeOnce fold registration tables).1 = applyAll fold registration.writes tables := by
  have hexact : (registration.writes.foldl (Write.applyBy fold id) tables) =
      applyAll fold registration.writes tables := by
    rw [applyAll]
    congr 1
    funext tables write
    exact applyBy_id fold tables write
  have hid : registration.tags.Pairwise fun a b => ¬(a.source = b.source ∧ id a.key = id b.key) :=
    (tags_distinct h).imp fun hne heq => hne ⟨heq.1, congrArg padded heq.2⟩
  have htags := (registered_tags fold tables (tags_distinct h)).trans
    (registered_tags fold tables hid).symm
  rw [← hexact, registerNodeOnce, writes_foldl, writes_foldl]
  rw [writes_foldl, writes_foldl] at htags
  dsimp only at htags ⊢
  rw [htags]

/-- The rows that the node declared. -/
def declaredRows (fold : String → String) (nodeId : String) (rows : List TagRow) : List TagRow :=
  rows.filter fun row => sameNode fold row.nodeId nodeId && row.tag.source == .node

def centerRows (rows : List TagRow) : List TagRow := rows.filter (·.tag.source == .center)

/-- A registration leaves the declared tags of its node and the rows of the center, and the
next one with the same tags changes nothing. -/
structure Registers (fold : String → String) (registration : Registration) (tables : Tables) :
    Prop where
  declared : (declaredRows fold registration.nodeId
      (registerNodeOnce fold registration tables).1.tags).map (·.tag) =
    classifyDeclaredTags registration.declared
  center : centerRows (registerNodeOnce fold registration tables).1.tags = centerRows tables.tags
  again : registerNodeOnce fold registration (registerNodeOnce fold registration tables).1 =
    ((registerNodeOnce fold registration tables).1, none)

theorem declaredRows_kept (nodeId : String) (rows : List TagRow) :
    declaredRows fold nodeId (keptRows fold nodeId rows) = [] := by
  rw [declaredRows, keptRows, List.filter_filter, List.filter_eq_nil_iff]
  intro row _
  cases hsource : row.tag.source <;> simp

theorem declaredRows_tags (fold : String → String) (registration : Registration) :
    declaredRows fold registration.nodeId (registration.tags.map (TagRow.mk registration.nodeId)) =
      (classifyDeclaredTags registration.declared).map (TagRow.mk registration.nodeId) := by
  rw [declaredRows, List.filter_map, Registration.tags, List.filter_append]
  have hclassified : (classifyDeclaredTags registration.declared).filter
      ((fun row : TagRow => sameNode fold row.nodeId registration.nodeId &&
        row.tag.source == .node) ∘ TagRow.mk registration.nodeId) =
          classifyDeclaredTags registration.declared := by
    rw [List.filter_eq_self]
    intro tag htag
    simp [sameNode, (classifyDeclaredTags_formed htag).1]
  have hsystem : (systemTags registration.version registration.os registration.arch).filter
      ((fun row : TagRow => sameNode fold row.nodeId registration.nodeId &&
        row.tag.source == .node) ∘ TagRow.mk registration.nodeId) = [] := by
    rw [List.filter_eq_nil_iff]
    intro tag htag
    simp [(systemTags_formed htag).1]
  rw [hclassified, hsystem, List.append_nil]

theorem centerRows_kept (nodeId : String) (rows : List TagRow) :
    centerRows (keptRows fold nodeId rows) = centerRows rows := by
  rw [centerRows, keptRows, List.filter_filter, centerRows]
  refine List.filter_congr fun row _ => ?_
  cases hsource : row.tag.source <;> simp

theorem centerRows_tags :
    centerRows (registration.tags.map (TagRow.mk registration.nodeId)) = [] := by
  rw [centerRows, List.filter_eq_nil_iff]
  intro row hrow
  obtain ⟨tag, htag, rfl⟩ := List.mem_map.mp hrow
  simpa using source_of_mem_tags htag

theorem keptRows_again (rows : List TagRow) :
    keptRows fold registration.nodeId (keptRows fold registration.nodeId rows ++
      registration.tags.map (TagRow.mk registration.nodeId)) =
        keptRows fold registration.nodeId rows := by
  rw [keptRows, List.filter_append]
  have hnone : (registration.tags.map (TagRow.mk registration.nodeId)).filter (fun row =>
      !(sameNode fold row.nodeId registration.nodeId && row.tag.source != .center)) = [] := by
    rw [List.filter_eq_nil_iff]
    intro row hrow
    obtain ⟨tag, htag, rfl⟩ := List.mem_map.mp hrow
    simpa [sameNode] using source_of_mem_tags htag
  rw [hnone, List.append_nil, keptRows, List.filter_filter]
  simp

theorem upsertNode_again (nodes : List Node) (node : Node) :
    upsertNode fold (upsertNode fold nodes node) node = upsertNode fold nodes node := by
  by_cases hany : (nodes.any fun row => sameNode fold row.nodeId node.nodeId) = true
  · have hagain : ((nodes.map fun row =>
        if sameNode fold row.nodeId node.nodeId then
          (⟨row.nodeId, node.version, node.labels⟩ : Node)
        else row).any fun row => sameNode fold row.nodeId node.nodeId) = true := by
      rw [List.any_map]
      refine Eq.trans ?_ hany
      congr 1
      funext row
      simp only [Function.comp_apply]
      split <;> rfl
    rw [upsertNode, upsertNode, if_pos hany, if_pos hagain, List.map_map]
    refine List.map_congr_left fun row _ => ?_
    simp only [Function.comp_apply]
    split <;> rfl
  · have hagain : ((nodes ++ [node]).any fun row => sameNode fold row.nodeId node.nodeId) = true := by
      simp [sameNode]
    rw [upsertNode, upsertNode, if_neg hany, if_pos hagain, List.map_append]
    congr 1
    · refine (List.map_congr_left fun row hrow => ?_).trans (List.map_id _)
      rw [if_neg fun hsame => hany (List.any_eq_true.mpr ⟨row, hrow, hsame⟩)]
      rfl
    · simp [sameNode]

theorem Tables.eq_of_parts {a b : Tables} (hnodes : a.nodes = b.nodes) (htags : a.tags = b.tags) :
    a = b := by
  cases a
  cases b
  cases hnodes
  cases htags
  rfl

theorem nodeSig_fetchTags (tables : Tables) (nodeId : String) :
    nodeSig (fetchTags fold tables nodeId) =
      declaredSig ((declaredRows fold nodeId tables.tags).map (·.tag)) := by
  rw [nodeSig, declaredSig, fetchTags, declaredRows, List.filter_map, List.filter_filter]
  congr 4
  funext row
  exact Bool.and_comm _ _

theorem nodeReportedDetail_self (sig : Sig) : nodeReportedDetail sig sig = none := if_pos rfl

theorem registers_of_apart (h : Apart registration.declared) (tables : Tables) :
    Registers fold registration tables := by
  have hafter : (registerNodeOnce fold registration tables).1.tags =
      keptRows fold registration.nodeId tables.tags ++
        registration.tags.map (TagRow.mk registration.nodeId) :=
    registered_tags fold tables (tags_distinct h)
  have hdeclared : (declaredRows fold registration.nodeId
      (registerNodeOnce fold registration tables).1.tags).map (·.tag) =
        classifyDeclaredTags registration.declared := by
    have hsplit := declaredRows_tags fold registration
    rw [hafter, declaredRows, List.filter_append, ← declaredRows, ← declaredRows,
      declaredRows_kept, hsplit, List.nil_append, List.map_map]
    exact List.map_id _
  refine ⟨hdeclared, ?_, Prod.ext ?_ ?_⟩
  · rw [hafter, centerRows, List.filter_append, ← centerRows, ← centerRows, centerRows_tags,
      centerRows_kept, List.append_nil]
  · have hagain := registered_tags fold (registerNodeOnce fold registration tables).1
      (tags_distinct h)
    rw [hafter, keptRows_again] at hagain
    have hnodes : (registerNodeOnce fold registration
        (registerNodeOnce fold registration tables).1).1.nodes =
          (registerNodeOnce fold registration tables).1.nodes := by
      simp only [registerNodeOnce, writes_foldl]
      exact upsertNode_again _ _
    have htags : (registerNodeOnce fold registration
        (registerNodeOnce fold registration tables).1).1.tags =
          (registerNodeOnce fold registration tables).1.tags := hagain.trans hafter.symm
    exact Tables.eq_of_parts hnodes htags
  · show nodeReportedDetail (nodeSig _) _ = none
    rw [nodeSig_fetchTags, hdeclared]
    exact nodeReportedDetail_self _

/-- The rows of a registration never have two keys that meet. -/
theorem registered_keys (tables : Tables) :
    (declaredKeys fold padded registration.nodeId
      (registerNodeOnce fold registration tables).1.tags).Nodup := by
  have hstart : (declaredKeys fold padded registration.nodeId
      (keptRows fold registration.nodeId tables.tags)).Nodup := by
    rw [declaredKeys, ← declaredRows, declaredRows_kept]
    exact List.nodup_nil
  rw [registerNodeOnce, writes_foldl]
  dsimp only
  generalize keptRows fold registration.nodeId tables.tags = rows at hstart
  induction registration.tags generalizing rows with
  | nil => exact hstart
  | cons tag tags ih => exact ih _ (declaredKeys_insertTag hstart)

/-- A registration does what it should, on every table, when no two declared keys meet, and
only then. -/
theorem registered_iff (registration : Registration) (tables : Tables) :
    Registers fold registration tables ↔ Apart registration.declared := by
  refine ⟨fun h => ?_, fun h => registers_of_apart h tables⟩
  rw [apart_iff, ← h.declared, List.map_map]
  exact registered_keys tables

end

/-! ## Two keys that meet -/

def spacedKeys : Registration :=
  ⟨"node-1", "", .ofList [("a", "1"), ("a ", "2")], "", ""⟩

/-- The row of the first key gets the value of the second, and each registration appends an
event. -/
theorem keys_meet :
    (declaredRows id "node-1" (registerNodeOnce id spacedKeys ⟨[], []⟩).1.tags).map (·.tag) =
        [⟨"a", "2", .node, false, some "key_invalid"⟩] ∧
      (registerNodeOnce id spacedKeys (registerNodeOnce id spacedKeys ⟨[], []⟩).1).2.isSome = true ∧
      ¬ Registers id spacedKeys ⟨[], []⟩ := by
  have hrows : (declaredRows id "node-1" (registerNodeOnce id spacedKeys ⟨[], []⟩).1.tags).map
      (·.tag) = [⟨"a", "2", .node, false, some "key_invalid"⟩] := by decide +kernel
  have hagain : (registerNodeOnce id spacedKeys
      (registerNodeOnce id spacedKeys ⟨[], []⟩).1).2.isSome = true := by decide +kernel
  refine ⟨hrows, hagain, fun h => ?_⟩
  rw [h.again] at hagain
  cases hagain

end Novbot.Tags
