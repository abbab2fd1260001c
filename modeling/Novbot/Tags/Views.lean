import Novbot.Tags.Stored

/-!
# The effective tags, four times

The precedence of tags is computed by the SQL view `node_tags_effective`, by `list_nodes`, by
`load_inventory` and for one node by `effective_of`.  `Agree` says that they give the same
tags, and that targeting counts a node as production when `counts_as_prod` does.

The database compares node ids under a collation, and `list_nodes` and `load_inventory` as
text.  They agree as long as rows spell a node as `nodes` does (`Spells`), and a node that
registers a second time in another spelling loses its tags there (`tags_lost`).
-/

namespace Novbot.Tags

open Concurrent

/-! ## The view -/

/-- A row of `node_tags_effective`. -/
structure ViewRow where
  nodeId : String
  key : String
  value : String
  source : Source
  nodeValue : Option String
  overridden : Bool
  deriving DecidableEq, Repr

section
variable (fold : String → String) (tags : List TagRow)

/-- The rows `nt` that the join of the view finds. -/
def joined (t : TagRow) : List TagRow :=
  if t.tag.source = .center then
    tags.filter fun nt => nt.holds fold t.nodeId .node t.tag.key && nt.tag.valid
  else []

def viewed (t : TagRow) : Bool :=
  t.tag.valid &&
    !(t.tag.source == .node && tags.any fun c => c.holds fold t.nodeId .center t.tag.key)

/-- A left join: a row without a match stays once. -/
def joinedRows (t : TagRow) : List ViewRow :=
  match joined fold tags t with
  | [] => [⟨t.nodeId, t.tag.key, t.tag.value, t.tag.source, none, false⟩]
  | nts => nts.map fun nt =>
      ⟨t.nodeId, t.tag.key, t.tag.value, t.tag.source, some nt.tag.value, true⟩

def nodeTagsEffective : List ViewRow :=
  (tags.filter (viewed fold tags)).flatMap (joinedRows fold tags)

end

/-! ## Its readers -/

structure NodeRow where
  nodeId : String
  tags : SortedMap String String
  tagSources : SortedMap String Source
  deriving DecidableEq

def Source.listRank : Source → Nat
  | .system => 0
  | .node => 1
  | .center => 2

structure InventoryNode where
  nodeId : String
  tags : SortedMap String String
  prod : Bool
  deriving DecidableEq

section
variable (fold : String → String) (tables : Tables)

/-- The rows that the readers find for a node. -/
def grouped (nodeId : String) : List ViewRow :=
  (nodeTagsEffective fold tables.tags).filter (·.nodeId == nodeId)

/-- A later row of the bucket replaces an earlier one of its key. -/
def listNodes : List NodeRow :=
  tables.nodes.map fun node =>
    let bucket := (grouped fold tables node.nodeId).mergeSort fun a b =>
      a.source.listRank ≤ b.source.listRank
    ⟨node.nodeId, .ofList (bucket.map fun row => (row.key, row.value)),
      .ofList (bucket.map fun row => (row.key, row.source))⟩

def loadInventory : List InventoryNode :=
  tables.nodes.map fun node =>
    let tags := .ofList ((grouped fold tables node.nodeId).map fun row => (row.key, row.value))
    let invalidProd := tables.tags.any fun row =>
      row.tag.invalidProd && row.nodeId == node.nodeId
    ⟨node.nodeId, tags, (tags.lookup "env").any (· == "prod") || invalidProd⟩

end

/-! ## Agreement -/

def ViewRow.effective (row : ViewRow) : Effective := ⟨row.value, row.source, row.overridden⟩

def TagRowView.tag (row : TagRowView) : Effective := ⟨row.value, row.source, row.overridden⟩

/-- One effective row for each key, chosen by its source, and the same everywhere. -/
structure Agree (fold : String → String) (tables : Tables) : Prop where
  precedence : ∀ node ∈ tables.nodes, ∀ key effective,
    (effectiveOf (fetchTags fold tables node.nodeId)).lookup key = some effective ↔
      ∃ tag, Chosen (fetchTags fold tables node.nodeId) key tag ∧
        effective = ⟨tag.value, tag.source, tag.source == .center &&
          (validNodeValue (fetchTags fold tables node.nodeId) key).isSome⟩
  view : ∀ node ∈ tables.nodes, ∀ key,
    ((nodeTagsEffective fold tables.tags).filter fun row =>
        sameNode fold row.nodeId node.nodeId && row.key == key).map ViewRow.effective =
      ((effectiveOf (fetchTags fold tables node.nodeId)).lookup key).toList
  shown : ∀ node ∈ tables.nodes, ∀ key,
    ((viewRows (fetchTags fold tables node.nodeId)).filter fun row =>
        row.effective && row.key == key).map TagRowView.tag =
      ((effectiveOf (fetchTags fold tables node.nodeId)).lookup key).toList
  listed : listNodes fold tables = tables.nodes.map fun node =>
    let effective := effectiveOf (fetchTags fold tables node.nodeId)
    ⟨node.nodeId, effective.map fun _ tag => tag.value, effective.map fun _ tag => tag.source⟩
  inventory : loadInventory fold tables = tables.nodes.map fun node =>
    let rows := fetchTags fold tables node.nodeId
    ⟨node.nodeId, (effectiveOf rows).map fun _ tag => tag.value, countsAsProd rows⟩

/-- Rows spell their node as `nodes` does. -/
def Spelled (fold : String → String) (tables : Tables) : Prop :=
  ∀ row ∈ tables.tags, ∀ node ∈ tables.nodes, fold row.nodeId = fold node.nodeId →
    row.nodeId = node.nodeId

/-- A transaction inserts tags under the spelling of the node. -/
def Spells (fold : String → String) (sys : System) (m : Move Nat Unit Event) : Prop :=
  ∀ t, m = .act t () → ∀ writes, sys.about t (.commit writes) →
    ∀ nodeId tag, .insertTag nodeId tag ∈ writes →
      ∀ node ∈ (applyAll fold writes sys.shared.tables).nodes,
        fold node.nodeId = fold nodeId → node.nodeId = nodeId

section
variable {fold : String → String} {tables : Tables}

/-! ## What the view shows -/

/-- What the view shows of a row. -/
def shownAs (rows : List StoredTag) (t : TagRow) : ViewRow :=
  let nodeValue := if t.tag.source = .center then validNodeValue rows t.tag.key else none
  ⟨t.nodeId, t.tag.key, t.tag.value, t.tag.source, nodeValue, nodeValue.isSome⟩

theorem eq_singleton {α : Type} {r : α → α → Prop} {l : List α} {a : α} (h : l.Pairwise r)
    (hno : ∀ a ∈ l, ∀ b ∈ l, ¬r a b) (ha : a ∈ l) : l = [a] := by
  match l, h, ha with
  | [b], _, ha => rw [List.mem_singleton.mp ha]
  | b :: c :: rest, h, _ =>
    have hbc := (List.pairwise_cons.mp h).1 c List.mem_cons_self
    exact absurd hbc (hno b (by simp) c (by simp))

theorem joinedRows_eq (hwell : WellFormed fold tables) (t : TagRow) :
    joinedRows fold tables.tags t = [shownAs (fetchTags fold tables t.nodeId) t] := by
  by_cases hsource : t.tag.source = .center
  · have hjoined : joined fold tables.tags t =
        tables.tags.filter fun nt => nt.holds fold t.nodeId .node t.tag.key && nt.tag.valid := by
      rw [joined, if_pos hsource]
    cases hfind : findSource (fetchTags fold tables t.nodeId) t.tag.key .node with
    | none =>
      have hnone : joined fold tables.tags t = [] := by
        rw [hjoined, List.filter_eq_nil_iff]
        intro nt hnt hholds
        rw [Bool.and_eq_true, holds_iff] at hholds
        obtain ⟨⟨hnode, hnt', hkey⟩, hvalid⟩ := hholds
        exact findSource_eq_none hfind nt.tag (mem_fetchTags.mpr ⟨nt, hnt, hnode, rfl⟩) hvalid hkey
          hnt'
      simp [joinedRows, hnone, shownAs, hsource, validNodeValue, hfind]
    | some tag =>
      obtain ⟨hmem, hvalid, hkey, hnode⟩ := findSource_of_eq_some hfind
      obtain ⟨nt, hnt, hsame, rfl⟩ := mem_fetchTags.mp hmem
      have hone : joined fold tables.tags t = [nt] := by
        rw [hjoined]
        refine eq_singleton (hwell.keys.filter _) ?_ (List.mem_filter.mpr ⟨hnt, ?_⟩)
        · intro a ha b hb hne
          have ha' := (List.mem_filter.mp ha).2
          have hb' := (List.mem_filter.mp hb).2
          rw [Bool.and_eq_true, holds_iff] at ha' hb'
          exact hne ⟨ha'.1.1.trans hb'.1.1.symm, ha'.1.2.1.trans hb'.1.2.1.symm,
            ha'.1.2.2.trans hb'.1.2.2.symm⟩
        · rw [Bool.and_eq_true, holds_iff]
          exact ⟨⟨hsame, hnode, hkey⟩, hvalid⟩
      simp [joinedRows, hone, shownAs, hsource, validNodeValue, hfind]
  · have hnone : joined fold tables.tags t = [] := by rw [joined, if_neg hsource]
    simp [joinedRows, hnone, shownAs, hsource]

theorem nodeTagsEffective_eq (hwell : WellFormed fold tables) :
    nodeTagsEffective fold tables.tags = (tables.tags.filter (viewed fold tables.tags)).map
      fun t => shownAs (fetchTags fold tables t.nodeId) t := by
  rw [nodeTagsEffective, List.map_eq_flatMap]
  exact List.flatMap_congr fun t _ => joinedRows_eq hwell t

/-- The view shows the rows that are effective. -/
theorem viewed_iff (hwell : WellFormed fold tables) {nodeId : String} {t : TagRow}
    (ht : t ∈ tables.tags) (hnode : fold t.nodeId = fold nodeId) :
    viewed fold tables.tags t = true ↔
      Chosen (fetchTags fold tables nodeId) t.tag.key t.tag := by
  have hmem : t.tag ∈ fetchTags fold tables nodeId := mem_fetchTags.mpr ⟨t, ht, hnode, rfl⟩
  simp only [viewed, Bool.and_eq_true, Bool.not_eq_true', Bool.and_eq_false_iff, beq_eq_false_iff_ne,
    List.any_eq_false, holds_iff, not_and]
  constructor
  · rintro ⟨hvalid, hhidden⟩
    refine ⟨hmem, hvalid, rfl, fun other hother hvalid' hkey => ?_⟩
    obtain ⟨row, hrow, hsame, rfl⟩ := mem_fetchTags.mp hother
    have hformed := hwell.formed t ht
    have hformed' := hwell.formed row hrow
    rw [StoredTag.Formed] at hformed hformed'
    cases hsource : t.tag.source with
    | center => exact Nat.zero_le _
    | node =>
      cases hother : row.tag.source with
      | center =>
        rcases hhidden with hne | hnone
        · exact absurd hsource hne
        · exact absurd hkey (hnone row hrow (hsame.trans hnode.symm) hother)
      | node => exact Nat.le_refl _
      | system => exact Nat.le_succ _
    | system =>
      -- A key of the system is not free.
      rw [hsource] at hformed
      have hreserved : isReservedKey row.tag.key = true := by rw [hkey]; exact hformed.2
      cases hother : row.tag.source with
      | center =>
        rw [hother] at hformed'
        simp [hformed'.2.2] at hreserved
      | node =>
        rw [hother] at hformed'
        simp [(hformed' hvalid').2] at hreserved
      | system => exact Nat.le_refl _
  · intro hchosen
    refine ⟨hchosen.valid, ?_⟩
    by_cases hsource : t.tag.source = .node
    · refine .inr fun c hc hsame hcenter hkey => ?_
      have hformed := hwell.formed c hc
      rw [StoredTag.Formed, hcenter] at hformed
      have hle := hchosen.least c.tag (mem_fetchTags.mpr ⟨c, hc, hsame.trans hnode, rfl⟩) hformed.1
        hkey
      rw [hsource, hcenter] at hle
      exact absurd hle (by decide)
    · exact .inl hsource

/-! ## One row for a key -/

theorem effectiveTag_iff {rows : List StoredTag} (hrows : Distinct rows) {key : String}
    {effective : Effective} :
    (effectiveOf rows).lookup key = some effective ↔ ∃ tag, Chosen rows key tag ∧
      effective = ⟨tag.value, tag.source,
        tag.source == .center && (validNodeValue rows key).isSome⟩ := by
  rw [lookup_effectiveOf, effectiveTag, Option.map_eq_some_iff]
  constructor
  · rintro ⟨tag, htag, rfl⟩
    exact ⟨tag, (chosen_eq_some hrows).mp htag, rfl⟩
  · rintro ⟨tag, htag, rfl⟩
    exact ⟨tag, (chosen_eq_some hrows).mpr htag, rfl⟩

theorem Chosen.eq {rows : List StoredTag} (hrows : Distinct rows) {key : String}
    {a b : StoredTag} (ha : Chosen rows key a) (hb : Chosen rows key b) : a = b := by
  have hsome := (chosen_eq_some hrows).mpr ha
  rw [(chosen_eq_some hrows).mpr hb] at hsome
  exact (Option.some.inj hsome).symm

/-- The elements of a list that stand for the chosen row of a key are what the map has. -/
theorem shown_chosen {α : Type} {rows : List StoredTag} (hrows : Distinct rows) {key : String}
    {l : List α} {r : α → α → Prop} (hl : l.Pairwise r) (tag : α → StoredTag)
    {f : α → Effective}
    (hchosen : ∀ a ∈ l, Chosen rows key (tag a))
    (hall : ∀ t, Chosen rows key t → ∃ a ∈ l, tag a = t)
    (hno : ∀ a ∈ l, ∀ b ∈ l, tag a = tag b → ¬r a b)
    (hf : ∀ a ∈ l, f a = ⟨(tag a).value, (tag a).source,
      (tag a).source == .center && (validNodeValue rows key).isSome⟩) :
    l.map f = ((effectiveOf rows).lookup key).toList := by
  cases hlookup : (effectiveOf rows).lookup key with
  | none =>
    cases l with
    | nil => rfl
    | cons a l =>
      have hsome := (effectiveTag_iff hrows).mpr ⟨tag a, hchosen a List.mem_cons_self, rfl⟩
      rw [hlookup] at hsome
      cases hsome
  | some effective =>
    obtain ⟨t, ht, rfl⟩ := (effectiveTag_iff hrows).mp hlookup
    obtain ⟨a, ha, rfl⟩ := hall t ht
    have hone : l = [a] := by
      refine eq_singleton hl (fun b hb c hc => ?_) ha
      exact hno b hb c hc (Chosen.eq hrows (hchosen b hb) (hchosen c hc))
    rw [hone, List.map_singleton, hf a (hone ▸ ha)]
    rfl

theorem view_agrees (hwell : WellFormed fold tables) (nodeId key : String) :
    ((nodeTagsEffective fold tables.tags).filter fun row =>
        sameNode fold row.nodeId nodeId && row.key == key).map ViewRow.effective =
      ((effectiveOf (fetchTags fold tables nodeId)).lookup key).toList := by
  have hrows := hwell.distinct nodeId
  -- A row of the same node sees the same rows.
  have hfetch : ∀ t : TagRow, fold t.nodeId = fold nodeId →
      fetchTags fold tables t.nodeId = fetchTags fold tables nodeId := by
    intro t ht
    simp only [fetchTags, sameNode, ht]
  rw [nodeTagsEffective_eq hwell, List.filter_map, List.map_map, List.filter_filter]
  have hmem : ∀ {t}, t ∈ tables.tags.filter (fun t =>
        ((fun row : ViewRow => sameNode fold row.nodeId nodeId && row.key == key) ∘
          fun t => shownAs (fetchTags fold tables t.nodeId) t) t && viewed fold tables.tags t) ↔
      t ∈ tables.tags ∧ (fold t.nodeId = fold nodeId ∧ t.tag.key = key) ∧
        viewed fold tables.tags t = true := by
    intro t
    simp [List.mem_filter, shownAs, sameNode_iff]
  refine shown_chosen hrows (hwell.keys.filter _) TagRow.tag ?_ ?_ ?_ ?_
  · intro t ht
    obtain ⟨ht, ⟨hnode, hkey⟩, hview⟩ := hmem.mp ht
    rw [← hkey]
    exact (viewed_iff hwell ht hnode).mp hview
  · intro tag htag
    obtain ⟨t, ht, hnode, rfl⟩ := mem_fetchTags.mp htag.mem
    refine ⟨t, hmem.mpr ⟨ht, ⟨hnode, htag.named⟩, (viewed_iff hwell ht hnode).mpr ?_⟩, rfl⟩
    rw [htag.named]
    exact htag
  · intro a ha b hb htag hne
    obtain ⟨-, ⟨hnode, -⟩, -⟩ := hmem.mp ha
    obtain ⟨-, ⟨hnode', -⟩, -⟩ := hmem.mp hb
    exact hne ⟨hnode.trans hnode'.symm, by rw [htag], by rw [htag]⟩
  · intro t ht
    obtain ⟨-, ⟨hnode, hkey⟩, -⟩ := hmem.mp ht
    simp only [Function.comp_apply, shownAs, ViewRow.effective, hfetch t hnode, hkey]
    by_cases hsource : t.tag.source = .center
    · simp [hsource]
    · simp [hsource, beq_eq_false_iff_ne.mpr hsource]

theorem viewRow_effective {rows : List StoredTag} (hrows : Distinct rows) {t : StoredTag}
    (ht : t ∈ rows) : (viewRow rows t).effective = true ↔ Chosen rows t.key t := by
  simp only [viewRow, Bool.and_eq_true, Option.any_eq_true, beq_iff_eq]
  constructor
  · rintro ⟨hvalid, effective, hlookup, hsource, -⟩
    obtain ⟨tag, htag, rfl⟩ := (effectiveTag_iff hrows).mp hlookup
    rw [← hrows.eq htag.mem ht htag.named hsource]
    rw [htag.named]
    exact htag
  · intro hchosen
    exact ⟨hchosen.valid, _, (effectiveTag_iff hrows).mpr ⟨t, hchosen, rfl⟩, rfl, rfl⟩

theorem shown_agrees {rows : List StoredTag} (hrows : Distinct rows) (key : String) :
    ((viewRows rows).filter fun row => row.effective && row.key == key).map TagRowView.tag =
      ((effectiveOf rows).lookup key).toList := by
  have hlisted : ((rows.map (viewRow rows)).filter fun row =>
      row.effective && row.key == key).map TagRowView.tag =
        ((effectiveOf rows).lookup key).toList := by
    rw [List.filter_map, List.map_map]
    have hmem : ∀ {t}, t ∈ rows.filter ((fun row => row.effective && row.key == key) ∘
        viewRow rows) ↔ t ∈ rows ∧ (viewRow rows t).effective = true ∧ t.key = key := by
      intro t
      simp [List.mem_filter, viewRow]
    refine shown_chosen hrows (List.Pairwise.filter _ hrows) id ?_ ?_ ?_ ?_
    · intro t ht
      obtain ⟨ht, heffective, hkey⟩ := hmem.mp ht
      rw [← hkey]
      exact (viewRow_effective hrows ht).mp heffective
    · intro t ht
      refine ⟨t, hmem.mpr ⟨ht.mem, (viewRow_effective hrows ht.mem).mpr ?_, ht.named⟩, rfl⟩
      rw [ht.named]
      exact ht
    · intro a _ b _ hsame hne
      cases hsame
      exact hne ⟨rfl, rfl⟩
    · intro t ht
      obtain ⟨-, -, hkey⟩ := hmem.mp ht
      simp [TagRowView.tag, viewRow, hkey]
  have hperm := (((List.mergeSort_perm (rows.map (viewRow rows)) fun a b =>
    decide (a.key < b.key) || (a.key == b.key && a.source.rank ≤ b.source.rank)).filter
      fun row => row.effective && row.key == key).map TagRowView.tag)
  rw [hlisted] at hperm
  -- At most one row is effective, so sorting does not matter.
  cases hlookup : (effectiveOf rows).lookup key with
  | none =>
    rw [hlookup] at hperm
    exact hperm.eq_nil
  | some effective =>
    rw [hlookup] at hperm
    exact List.perm_singleton.mp hperm

/-! ## The readers -/

/-- The maps that a reader makes of the rows it finds for a node. -/
theorem map_agrees (hwell : WellFormed fold tables) (hspelled : Spelled fold tables) {node : Node}
    (hnode : node ∈ tables.nodes) {bucket : List ViewRow}
    (hbucket : ∀ row, row ∈ bucket ↔ row ∈ grouped fold tables node.nodeId) {ν : Type}
    (f : Effective → ν) :
    (SortedMap.ofList (bucket.map fun row => (row.key, f row.effective)) : SortedMap String ν) =
      (effectiveOf (fetchTags fold tables node.nodeId)).map fun _ tag => f tag := by
  have hrow : ∀ row, row ∈ bucket ↔
      row ∈ (nodeTagsEffective fold tables.tags).filter fun other =>
        sameNode fold other.nodeId node.nodeId && other.key == row.key := by
    intro row
    rw [hbucket, grouped, List.mem_filter, List.mem_filter, Bool.and_eq_true, sameNode_iff,
      beq_iff_eq]
    refine and_congr_right fun hmem => ⟨fun heq => ⟨by rw [heq], beq_self_eq_true _⟩, ?_⟩
    rintro ⟨hsame, -⟩
    rw [nodeTagsEffective_eq hwell] at hmem
    obtain ⟨t, ht, rfl⟩ := List.mem_map.mp hmem
    exact hspelled t (List.mem_filter.mp ht).1 node hnode hsame
  have hlookup : ∀ {row}, row ∈ bucket → (effectiveOf (fetchTags fold tables node.nodeId)).lookup
      row.key = some row.effective := by
    intro row hmem
    have hin := List.mem_map_of_mem (f := ViewRow.effective) ((hrow row).mp hmem)
    rw [view_agrees hwell] at hin
    exact Option.mem_toList.mp hin
  refine SortedMap.ext_lookup fun key => Option.ext fun value => ?_
  rw [SortedMap.lookup_map, SortedMap.lookup_ofList_iff, Option.map_eq_some_iff]
  · constructor
    · intro h
      obtain ⟨row, hmem, heq⟩ := List.mem_map.mp h
      cases heq
      exact ⟨row.effective, hlookup hmem, rfl⟩
    · rintro ⟨effective, hsome, rfl⟩
      have hin : effective ∈ ((nodeTagsEffective fold tables.tags).filter fun row =>
          sameNode fold row.nodeId node.nodeId && row.key == key).map ViewRow.effective := by
        rw [view_agrees hwell, hsome]
        exact List.mem_singleton_self _
      obtain ⟨row, hmem, rfl⟩ := List.mem_map.mp hin
      have hkey : row.key = key := by
        have hp := (List.mem_filter.mp hmem).2
        rw [Bool.and_eq_true, beq_iff_eq] at hp
        exact hp.2
      subst hkey
      exact List.mem_map.mpr ⟨row, (hrow row).mpr hmem, rfl⟩
  · intro a ha b hb hkey
    obtain ⟨row, hmem, rfl⟩ := List.mem_map.mp ha
    obtain ⟨row', hmem', rfl⟩ := List.mem_map.mp hb
    have hsame := hlookup hmem
    rw [show row.key = row'.key from hkey, hlookup hmem', Option.some.injEq] at hsame
    exact congrArg f hsame.symm

theorem prod_agrees (hspelled : Spelled fold tables) {node : Node} (hnode : node ∈ tables.nodes) :
    (tables.tags.any fun row => row.tag.invalidProd && row.nodeId == node.nodeId) =
      (fetchTags fold tables node.nodeId).any (·.invalidProd) := by
  rw [Bool.eq_iff_iff, List.any_eq_true, List.any_eq_true]
  constructor
  · rintro ⟨row, hrow, hboth⟩
    rw [Bool.and_eq_true, beq_iff_eq] at hboth
    exact ⟨row.tag, mem_fetchTags.mpr ⟨row, hrow, by rw [hboth.2], rfl⟩, hboth.1⟩
  · rintro ⟨tag, htag, hprod⟩
    obtain ⟨row, hrow, hsame, rfl⟩ := mem_fetchTags.mp htag
    refine ⟨row, hrow, ?_⟩
    rw [Bool.and_eq_true, beq_iff_eq]
    exact ⟨hprod, hspelled row hrow node hnode hsame⟩

theorem agree_of_spelled (hwell : WellFormed fold tables) (hspelled : Spelled fold tables) :
    Agree fold tables where
  precedence _ _ _ _ := effectiveTag_iff (hwell.distinct _)
  view node _ key := view_agrees hwell node.nodeId key
  shown node _ key := shown_agrees (hwell.distinct node.nodeId) key
  listed := by
    refine List.map_congr_left fun node hnode => ?_
    have hbucket : ∀ row, row ∈ (grouped fold tables node.nodeId).mergeSort
        (fun a b => a.source.listRank ≤ b.source.listRank) ↔
          row ∈ grouped fold tables node.nodeId := fun row => List.mem_mergeSort
    have hvalues := map_agrees hwell hspelled hnode hbucket Effective.value
    have hsources := map_agrees hwell hspelled hnode hbucket Effective.source
    exact congrArg₂ (NodeRow.mk node.nodeId) hvalues hsources
  inventory := by
    refine List.map_congr_left fun node hnode => ?_
    have hvalues := map_agrees hwell hspelled hnode (fun _ => Iff.rfl) Effective.value
    refine congrArg₂ (InventoryNode.mk node.nodeId) hvalues ?_
    have htags : (SortedMap.ofList ((grouped fold tables node.nodeId).map fun row =>
        (row.key, row.value)) : SortedMap String String) = _ := hvalues
    rw [htags, prod_agrees hspelled hnode, SortedMap.lookup_map, countsAsProd, Bool.or_comm]
    cases (effectiveOf (fetchTags fold tables node.nodeId)).lookup "env" <;> rfl

/-! ## Every run -/

theorem WellFormed.node_eq (hwell : WellFormed fold tables) {a b : Node} (ha : a ∈ tables.nodes)
    (hb : b ∈ tables.nodes) (hsame : fold a.nodeId = fold b.nodeId) : a = b := by
  have hnodup : (tables.nodes.map fun node => fold node.nodeId).Nodup :=
    List.pairwise_map.mpr hwell.nodes
  exact List.inj_on_of_nodup_map hnodup ha hb hsame

theorem Spelled.applyAll {writes : List Write} (h : Spelled fold tables)
    (href : Referenced fold tables) (hwell : WellFormed fold (applyAll fold writes tables))
    (hinserts : ∀ nodeId tag, .insertTag nodeId tag ∈ writes →
      ∀ node ∈ (applyAll fold writes tables).nodes, fold node.nodeId = fold nodeId →
        node.nodeId = nodeId) : Spelled fold (applyAll fold writes tables) := by
  intro row hrow node hnode hsame
  rcases row_of_applyAll hrow with ⟨old, hold, heq⟩ | ⟨tag, hinsert⟩
  · -- The node of an old row is still there, and no other node has its id.
    obtain ⟨parent, hparent, hparent'⟩ := href old hold
    obtain ⟨after, hafter, hkeep⟩ := node_of_applyAll hparent
    have hnode' : after = node := by
      refine hwell.node_eq hafter hnode ?_
      rw [hkeep, hparent', heq, hsame]
    rw [← hnode', hkeep, ← heq]
    exact h old hold parent hparent hparent'.symm
  · exact (hinserts row.nodeId tag hinsert node hnode hsame.symm).symm

theorem spelled_of_reaches {sys : System} (h : (center fold).Reaches (Spells fold) initial sys) :
    Spelled fold sys.shared.tables := by
  refine tables_of_reaches ?_ ?_ ?_ h
  · intro row hrow
    cases hrow
  · intro sys t writes hreach hspelled hok habout hcommits _
    exact hspelled.applyAll (referenced_of_reaches hreach)
      ((wellFormed_of_reaches hreach).applyAll hcommits.formed) (hok t rfl writes habout)
  · intro sys filled hreach hspelled hfilled _
    have hwell : WellFormed fold (Tags.applyAll fold
        (backfillWrites fold sys.shared.tables filled) sys.shared.tables) := by
      refine (wellFormed_of_reaches hreach).applyAll fun write hwrite => ?_
      obtain ⟨tag, hformed, rfl⟩ := backfill_inserts hwrite
      exact hformed
    refine hspelled.applyAll (referenced_of_reaches hreach) hwell ?_
    intro nodeId tag hinsert node hnode hsame
    obtain ⟨found, -, hwrite⟩ := backfill_inserts hinsert
    cases hwrite
    obtain ⟨after, hafter, hkeep⟩ := node_of_applyAll hfilled
    rw [← hwell.node_eq hafter hnode (by rw [hkeep, hsame]), hkeep]

/-- In every run whose transactions spell nodes as `nodes` does, the precedence comes out the
same wherever it is computed. -/
theorem effective_tags_agree {sys : System}
    (h : (center fold).Reaches (Spells fold) initial sys) : Agree fold sys.shared.tables :=
  agree_of_spelled (wellFormed_of_reaches h) (spelled_of_reaches h)

/-- A collation that tells all spellings apart. -/
theorem spells_of_injective (hfold : Function.Injective fold) (sys : System)
    (m : Move Nat Unit Event) : Spells fold sys m :=
  fun _ _ _ _ _ _ _ _ _ hsame => hfold hsame

end

/-! ## Two runs -/

def webNode (nodeId : String) (env : String) : Registration :=
  ⟨nodeId, "1.0", SortedMap.empty.insert "env" env, "linux", "x86_64"⟩

/-- A request that runs without others. -/
def serve (request : Request) (steps : Nat) : List (Move Nat Unit Event) :=
  .event (.start 0 request) :: List.replicate steps (.act 0 ())

/-- A production node that the center calls a test node. -/
def testMoves : List (Move Nat Unit Event) :=
  serve (.register (webNode "web-1" "prod")) 3 ++
    serve (.setCenterTag "web-1" "env" ⟨"test", none, some 1⟩) 3

theorem effective_tags_agree_test : ∃ sys : System,
    (loadInventory id sys.shared.tables).map (·.prod) = [false] ∧
      Agree id sys.shared.tables := by
  have hrun : ((center id).run (fun _ _ => true) initial testMoves).any (fun sys =>
      (loadInventory id sys.shared.tables).map (·.prod) = [false]) = true := by
    decide +kernel
  obtain ⟨sys, hreach, hprod⟩ := Machine.exists_reaches_of_run
    (fun sys m _ => spells_of_injective Function.injective_id sys m) hrun
  exact ⟨sys, of_decide_eq_true hprod, effective_tags_agree hreach⟩

/-- A collation without case. -/
def lowercase (s : String) : String := .ofList (s.toList.map Text.toAsciiLowercase)

/-- A production node that registers in two spellings. -/
def respelledMoves : List (Move Nat Unit Event) :=
  serve (.register (webNode "Web-1" "prod")) 3 ++ serve (.register (webNode "web-1" "prod")) 3

theorem tags_lost : ∃ sys : System,
    (center lowercase).Reaches (fun _ _ => True) initial sys ∧
      ¬ Agree lowercase sys.shared.tables := by
  have hrun : ((center lowercase).run (fun _ _ => true) initial respelledMoves).any (fun sys =>
      (loadInventory lowercase sys.shared.tables).map (·.prod) = [false] ∧
        (sys.shared.tables.nodes.map fun node =>
          countsAsProd (fetchTags lowercase sys.shared.tables node.nodeId)) = [true]) = true := by
    decide +kernel
  obtain ⟨sys, hreach, hlost⟩ := Machine.exists_reaches_of_run (fun _ _ _ => trivial) hrun
  obtain ⟨hlisted, hcounted⟩ := of_decide_eq_true hlost
  refine ⟨sys, hreach, fun hagree => ?_⟩
  rw [hagree.inventory, List.map_map] at hlisted
  have hflags : (sys.shared.tables.nodes.map fun node =>
      countsAsProd (fetchTags lowercase sys.shared.tables node.nodeId)) = [false] := hlisted
  rw [hcounted] at hflags
  cases hflags

end Novbot.Tags
