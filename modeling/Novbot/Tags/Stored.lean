import Novbot.Tags.Center

/-!
# What `node_tags` holds

In every reachable state the primary keys are unique under the collation and every row could
have been stored by its source (`wellFormed_of_reaches`), whatever order requests ran in.
`centerOf` is the center's value for a key of a node, and `centerOf_apply` says what each
write does to it.
-/

namespace Novbot.Tags

open Concurrent

section
variable {fold : String → String}

theorem sameNode_iff {a b : String} : sameNode fold a b = true ↔ fold a = fold b := beq_iff_eq

theorem holds_iff {row : TagRow} {nodeId key : String} {source : Source} :
    row.holds fold nodeId source key = true ↔
      fold row.nodeId = fold nodeId ∧ row.tag.source = source ∧ row.tag.key = key := by
  simp only [TagRow.holds, Bool.and_eq_true, sameNode_iff, beq_iff_eq, and_assoc]

theorem mem_fetchTags {tables : Tables} {nodeId : String} {tag : StoredTag} :
    tag ∈ fetchTags fold tables nodeId ↔
      ∃ row ∈ tables.tags, fold row.nodeId = fold nodeId ∧ row.tag = tag := by
  simp [fetchTags, sameNode_iff, and_assoc]

/-! ## Primary keys and rows -/

/-- The unique keys of the tables, and rows that their source may write. -/
structure WellFormed (fold : String → String) (tables : Tables) : Prop where
  nodes : tables.nodes.Pairwise fun a b => fold a.nodeId ≠ fold b.nodeId
  keys : tables.tags.Pairwise fun a b =>
    ¬(fold a.nodeId = fold b.nodeId ∧ a.tag.source = b.tag.source ∧ a.tag.key = b.tag.key)
  formed : ∀ row ∈ tables.tags, row.tag.Formed

/-- One row of a node for a key and a source. -/
theorem WellFormed.distinct {tables : Tables} (h : WellFormed fold tables) (nodeId : String) :
    Distinct (fetchTags fold tables nodeId) := by
  refine List.pairwise_map.mpr ((h.keys.filter _).imp_of_mem fun {a b} ha hb hne heq => ?_)
  have hnode := sameNode_iff.mp (List.mem_filter.mp ha).2
  have hnode' := sameNode_iff.mp (List.mem_filter.mp hb).2
  exact hne ⟨hnode.trans hnode'.symm, heq.2, heq.1⟩

theorem WellFormed.formed_of_mem {tables : Tables} (h : WellFormed fold tables) {nodeId : String}
    {tag : StoredTag} (htag : tag ∈ fetchTags fold tables nodeId) : tag.Formed := by
  obtain ⟨row, hrow, -, rfl⟩ := mem_fetchTags.mp htag
  exact h.formed row hrow

def Write.Formed : Write → Prop
  | .insertTag _ tag => tag.Formed
  | _ => True

theorem upsertNode_distinct {nodes : List Node} {node : Node}
    (h : nodes.Pairwise fun a b => fold a.nodeId ≠ fold b.nodeId) :
    (upsertNode fold nodes node).Pairwise fun a b => fold a.nodeId ≠ fold b.nodeId := by
  rw [upsertNode]
  split
  · refine List.pairwise_map.mpr (h.imp fun {a b} hne => ?_)
    split <;> split <;> exact hne
  · next hnew =>
    refine List.pairwise_append.mpr ⟨h, List.pairwise_singleton _ _, fun a ha b hb heq => ?_⟩
    rw [List.mem_singleton.mp hb] at heq
    exact hnew (List.any_eq_true.mpr ⟨a, ha, sameNode_iff.mpr heq⟩)

theorem mem_insertTag {tags : List TagRow} {nodeId : String} {tag : StoredTag} {row : TagRow}
    (h : row ∈ insertTag fold tags nodeId tag) :
    row ∈ tags ∨ (row.tag = tag ∧
      (row.nodeId = nodeId ∨ ∃ old ∈ tags, old.holds fold nodeId tag.source tag.key = true ∧
        row.nodeId = old.nodeId)) := by
  rw [insertTag] at h
  split at h
  · obtain ⟨old, hold, rfl⟩ := List.mem_map.mp h
    split
    · next hsame =>
      obtain ⟨-, hsource, hkey⟩ := holds_iff.mp hsame
      refine .inr ⟨?_, .inr ⟨old, hold, hsame, rfl⟩⟩
      dsimp only
      rw [hsource, hkey]
    · exact .inl hold
  · rcases List.mem_append.mp h with h | h
    · exact .inl h
    · rw [List.mem_singleton.mp h]
      exact .inr ⟨rfl, .inl rfl⟩

theorem insertTag_keys {tags : List TagRow} {nodeId : String} {tag : StoredTag}
    (h : tags.Pairwise fun a b =>
      ¬(fold a.nodeId = fold b.nodeId ∧ a.tag.source = b.tag.source ∧ a.tag.key = b.tag.key)) :
    (insertTag fold tags nodeId tag).Pairwise fun a b =>
      ¬(fold a.nodeId = fold b.nodeId ∧ a.tag.source = b.tag.source ∧ a.tag.key = b.tag.key) := by
  rw [insertTag]
  split
  · refine List.pairwise_map.mpr (h.imp fun {a b} hne => ?_)
    split <;> split <;> exact hne
  · next hnew =>
    refine List.pairwise_append.mpr ⟨h, List.pairwise_singleton _ _, fun a ha b hb heq => ?_⟩
    rw [List.mem_singleton.mp hb] at heq
    exact hnew (List.any_eq_true.mpr ⟨a, ha, holds_iff.mpr heq⟩)

theorem WellFormed.apply {tables : Tables} {write : Write} (h : WellFormed fold tables)
    (hwrite : write.Formed) : WellFormed fold (write.apply fold tables) := by
  cases write with
  | upsertNode node => exact ⟨upsertNode_distinct h.nodes, h.keys, h.formed⟩
  | insertTag nodeId tag =>
    refine ⟨h.nodes, insertTag_keys h.keys, fun row hrow => ?_⟩
    rcases mem_insertTag hrow with hold | ⟨rfl, -⟩
    · exact h.formed row hold
    · exact hwrite
  | deleteReported nodeId =>
    exact ⟨h.nodes, h.keys.filter _, fun row hrow => h.formed row (List.mem_filter.mp hrow).1⟩
  | deleteCenter nodeId key =>
    exact ⟨h.nodes, h.keys.filter _, fun row hrow => h.formed row (List.mem_filter.mp hrow).1⟩

theorem WellFormed.applyAll {writes : List Write} {tables : Tables} (h : WellFormed fold tables)
    (hwrites : ∀ write ∈ writes, write.Formed) : WellFormed fold (applyAll fold writes tables) := by
  induction writes generalizing tables with
  | nil => exact h
  | cons write writes ih =>
    exact ih (h.apply (hwrites write List.mem_cons_self)) fun later hlater =>
      hwrites later (.tail _ hlater)

/-- Every row has its node. -/
def Referenced (fold : String → String) (tables : Tables) : Prop :=
  ∀ row ∈ tables.tags, ∃ node ∈ tables.nodes, fold node.nodeId = fold row.nodeId

theorem referenced_iff {tables : Tables} :
    referenced fold tables = true ↔ Referenced fold tables := by
  simp [referenced, Referenced, nodeExists, sameNode_iff]

theorem Center.commit_tables (center : Center) (writes : List Write) :
    (center.commit fold writes).tables = center.tables ∨
      Referenced fold (Tags.applyAll fold writes center.tables) ∧
        (center.commit fold writes).tables = Tags.applyAll fold writes center.tables := by
  rw [Center.commit]
  split
  · next h => exact .inr ⟨referenced_iff.mp h, rfl⟩
  · exact .inl rfl

/-! ## What is written -/

theorem registration_formed {registration : Registration} {write : Write}
    (h : write ∈ registration.writes) : write.Formed := by
  simp only [Registration.writes, List.mem_cons, List.mem_map, List.mem_append] at h
  rcases h with rfl | rfl | ⟨tag, htag | htag, rfl⟩
  · trivial
  · trivial
  · exact (classifyDeclaredTags_formed htag).2
  · exact (systemTags_formed htag).2

/-- A plan writes what its request asks for. -/
theorem planNode_formed {add : SortedMap String String} {remove : List String}
    (hadd : ∀ entry ∈ add.entries, validateCenterTag entry.1 entry.2 = .ok ())
    (hremove : ∀ key ∈ remove, add.contains key = false) {rows : List StoredTag}
    {nodeId other : String} {change : Change}
    (h : change ∈ (planNode rows nodeId true add remove).changes) :
    (change.write other).Formed := by
  rcases planNode_requested hremove h with ⟨key, -, rfl⟩ | ⟨entry, hentry, rfl⟩
  · trivial
  · exact centerTag_formed (hadd entry hentry)

theorem Commits.formed {loc : Loc} {writes : List Write} (h : Commits loc writes) :
    ∀ write ∈ writes, write.Formed := by
  cases h with
  | set _ hvalid _ _ _ =>
    intro write hwrite
    rw [List.mem_singleton.mp hwrite]
    exact centerTag_formed hvalid
  | delete _ _ _ _ =>
    intro write hwrite
    rw [List.mem_singleton.mp hwrite]
    trivial
  | bulk _ htargets hmade _ _ _ =>
    obtain ⟨hadd, hremove⟩ := targets_ok htargets
    intro write hwrite
    obtain ⟨plan, hplan, hwrite⟩ := List.mem_flatMap.mp hwrite
    obtain ⟨change, hchange, rfl⟩ := List.mem_map.mp hwrite
    cases hfound : plan.found with
    | false =>
      rw [NodePlan.changes, hfound] at hchange
      cases hchange
    | true =>
      obtain ⟨rows, -, hplan⟩ := hmade plan hplan hfound
      rw [hplan] at hchange
      exact planNode_formed hadd hremove hchange
  | register _ _ => exact fun write hwrite => registration_formed hwrite

theorem reserved_version : isReservedKey "sys.version" = true := by decide

/-- The tags that are filled in go to the node they were made from. -/
theorem backfill_inserts {tables : Tables} {node : Node} {write : Write}
    (h : write ∈ backfillWrites fold tables node) :
    ∃ tag : StoredTag, tag.Formed ∧ write = .insertTag node.nodeId tag := by
  rcases List.mem_append.mp h with h | h
  · split at h
    · cases h
    · obtain ⟨tag, htag, rfl⟩ := List.mem_map.mp h
      exact ⟨tag, (classifyDeclaredTags_formed htag).2, rfl⟩
  · split at h
    · cases h
    · split at h
      · cases h
      · obtain ⟨value, -, rfl⟩ := Option.map_eq_some_iff.mp (Option.mem_toList.mp h)
        exact ⟨systemTag "sys.version" value, ⟨rfl, reserved_version⟩, rfl⟩

/-! ## Every reachable state -/

theorem exec_tables {t : Nat} {op : Op} {center center' : Center} {reply : op.Reply}
    (h : exec fold t op center = some (reply, center')) :
    center'.tables = center.tables ∨
      ∃ writes, op = .commit writes ∧ center'.tables = (center.commit fold writes).tables := by
  cases op with
  | lockNode nodeId =>
    simp only [exec] at h
    split at h
    · split at h <;> cases h <;> exact .inl rfl
    · cases h
  | lockUpsert nodeId =>
    simp only [exec] at h
    split at h
    · cases h
      exact .inl rfl
    · cases h
  | fetchTags nodeId =>
    cases h
    exact .inl rfl
  | commit writes =>
    cases h
    exact .inr ⟨writes, rfl, rfl⟩
  | rollback =>
    cases h
    exact .inl rfl

theorem fire_tables {e : Event} {sys sys' : System} (h : fire fold e sys = some sys') :
    sys'.shared.tables = sys.shared.tables ∨
      ∃ node ∈ sys.shared.tables.nodes, sys'.shared.tables =
        (sys.shared.commit fold (backfillWrites fold sys.shared.tables node)).tables := by
  cases e with
  | start t request =>
    simp only [fire] at h
    split at h
    · cases h
      exact .inl rfl
    · cases h
  | abort t =>
    cases h
    exact .inl rfl
  | backfill index =>
    simp only [fire, Option.map_eq_some_iff] at h
    obtain ⟨node, hnode, rfl⟩ := h
    exact .inr ⟨node, List.mem_of_getElem? (Option.filter_eq_some_iff.mp hnode).1, rfl⟩

/-- The invariant rule for the committed tables. -/
theorem tables_of_reaches {ok : System → Move Nat Unit Event → Prop} {P : Tables → Prop}
    (hinit : P ⟨[], []⟩)
    (hcommit : ∀ sys t writes, (center fold).Reaches ok initial sys → P sys.shared.tables →
      ok sys (.act t ()) → sys.about t (.commit writes) → Commits (sys.loc t) writes →
      Referenced fold (applyAll fold writes sys.shared.tables) →
      P (applyAll fold writes sys.shared.tables))
    (hbackfill : ∀ sys node, (center fold).Reaches ok initial sys → P sys.shared.tables →
      node ∈ sys.shared.tables.nodes →
      Referenced fold (applyAll fold (backfillWrites fold sys.shared.tables node)
        sys.shared.tables) →
      P (applyAll fold (backfillWrites fold sys.shared.tables node) sys.shared.tables))
    {sys : System} (h : (center fold).Reaches ok initial sys) : P sys.shared.tables := by
  refine h.invariant (P := fun shared _ => P shared.tables) (center_obeys fold)
    (initial_sound fold) hinit ?_ ?_
  · intro sys t op c reply shared hreach hP hok habout hpre _ hexec
    rcases exec_tables hexec with heq | ⟨writes, rfl, heq⟩
    · rw [heq]
      exact hP
    · rw [heq]
      rcases sys.shared.commit_tables writes with heq | ⟨href, heq⟩
      · rw [heq]
        exact hP
      · rw [heq]
        exact hcommit sys t writes hreach hP hok habout hpre href
  · intro sys e sys' hreach hP _ hfire
    rcases fire_tables hfire with heq | ⟨node, hnode, heq⟩
    · rw [heq]
      exact hP
    · rw [heq]
      rcases sys.shared.commit_tables (backfillWrites fold sys.shared.tables node) with
        heq | ⟨href, heq⟩
      · rw [heq]
        exact hP
      · rw [heq]
        exact hbackfill sys node hreach hP hnode href

variable {ok : System → Move Nat Unit Event → Prop} {sys : System}

theorem wellFormed_of_reaches (h : (center fold).Reaches ok initial sys) :
    WellFormed fold sys.shared.tables := by
  refine tables_of_reaches ?_ ?_ ?_ h
  · exact ⟨List.Pairwise.nil, List.Pairwise.nil, fun row hrow => by cases hrow⟩
  · exact fun sys t writes _ hwell _ _ hcommits _ => hwell.applyAll hcommits.formed
  · exact fun sys node _ hwell _ _ => hwell.applyAll fun write hwrite => by
      obtain ⟨tag, hformed, rfl⟩ := backfill_inserts hwrite
      exact hformed

/-! ## What a transaction keeps and adds -/

theorem nodeId_of_insertTag {tags : List TagRow} {nodeId : String} {tag : StoredTag}
    {row : TagRow} (h : row ∈ insertTag fold tags nodeId tag) :
    (∃ old ∈ tags, old.nodeId = row.nodeId) ∨ row.nodeId = nodeId := by
  rcases mem_insertTag h with hold | ⟨-, hnew | ⟨old, hold, -, heq⟩⟩
  · exact .inl ⟨row, hold, rfl⟩
  · exact .inr hnew
  · exact .inl ⟨old, hold, heq.symm⟩

/-- A row was there before, or it was inserted. -/
theorem row_of_applyAll {writes : List Write} {tables : Tables} {row : TagRow}
    (h : row ∈ (applyAll fold writes tables).tags) :
    (∃ old ∈ tables.tags, old.nodeId = row.nodeId) ∨
      ∃ tag, .insertTag row.nodeId tag ∈ writes := by
  induction writes generalizing tables with
  | nil => exact .inl ⟨row, h, rfl⟩
  | cons write writes ih =>
    rcases ih h with ⟨mid, hmid, heq⟩ | ⟨tag, htag⟩
    · cases write with
      | upsertNode node => exact .inl ⟨mid, hmid, heq⟩
      | insertTag nodeId tag =>
        rcases nodeId_of_insertTag hmid with ⟨old, hold, hsame⟩ | hnew
        · exact .inl ⟨old, hold, hsame.trans heq⟩
        · rw [heq] at hnew
          exact .inr ⟨tag, hnew ▸ List.mem_cons_self⟩
      | deleteReported nodeId => exact .inl ⟨mid, (List.mem_filter.mp hmid).1, heq⟩
      | deleteCenter nodeId key => exact .inl ⟨mid, (List.mem_filter.mp hmid).1, heq⟩
    · exact .inr ⟨tag, .tail _ htag⟩

theorem upsertNode_keeps {nodes : List Node} {node old : Node} (h : old ∈ nodes) :
    ∃ row ∈ upsertNode fold nodes node, row.nodeId = old.nodeId := by
  rw [upsertNode]
  split
  · refine ⟨_, List.mem_map_of_mem h, ?_⟩
    split <;> rfl
  · exact ⟨old, List.mem_append_left _ h, rfl⟩

/-- A node keeps its spelling. -/
theorem node_of_applyAll {writes : List Write} {tables : Tables} {old : Node}
    (h : old ∈ tables.nodes) :
    ∃ node ∈ (applyAll fold writes tables).nodes, node.nodeId = old.nodeId := by
  induction writes generalizing tables old with
  | nil => exact ⟨old, h, rfl⟩
  | cons write writes ih =>
    cases write with
    | upsertNode node =>
      have hkeeps : ∃ mid ∈ (Write.apply fold tables (.upsertNode node)).nodes,
          mid.nodeId = old.nodeId := upsertNode_keeps h
      obtain ⟨mid, hmid, heq⟩ := hkeeps
      obtain ⟨last, hlast, hlater⟩ := ih hmid
      exact ⟨last, hlast, hlater.trans heq⟩
    | insertTag nodeId tag => exact ih h
    | deleteReported nodeId => exact ih h
    | deleteCenter nodeId key => exact ih h

theorem referenced_of_reaches (h : (center fold).Reaches ok initial sys) :
    Referenced fold sys.shared.tables := by
  refine tables_of_reaches ?_ ?_ ?_ h
  · intro row hrow
    cases hrow
  · exact fun sys t writes _ _ _ _ _ href => href
  · exact fun sys node _ _ _ href => href

end

end Novbot.Tags
