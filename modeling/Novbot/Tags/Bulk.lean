import Novbot.Tags.Production

/-!
# What a bulk change does to a node

A bulk change asks for keys to be removed and for pairs to be added.  `asked` says what that
makes of the tags of a node, with the new keys that there is no room for.  The plan of a node
keeps a set of keys, a list of items and an overlay, and it is carried out item by item;
`Follows` is what the three have to do with what was asked for once some keys are planned.
`bulk_exact` says that a change that is carried out leaves what was asked for and nothing
else, that its plans tell the effective values before and after, and that a dry run on the
same tables reports the same.
-/

namespace Novbot.Tags

open Concurrent

/-! ## The request -/

structure BulkCounts where
  added : Nat
  changed : Nat
  unchanged : Nat
  removed : Nat
  notChangedBootReported : Nat
  notFound : Nat
  error : Nat
  deriving DecidableEq, Repr

def BulkCounts.zero : BulkCounts := ⟨0, 0, 0, 0, 0, 0, 0⟩

def BulkCounts.count (counts : BulkCounts) : PlanAction → BulkCounts
  | .added => { counts with added := counts.added + 1 }
  | .changed => { counts with changed := counts.changed + 1 }
  | .unchanged => { counts with unchanged := counts.unchanged + 1 }
  | .removed => { counts with removed := counts.removed + 1 }
  | .notChangedBootReported =>
    { counts with notChangedBootReported := counts.notChangedBootReported + 1 }
  | .notFound => { counts with notFound := counts.notFound + 1 }
  | .error => { counts with error := counts.error + 1 }

structure BulkItem where
  key : String
  action : PlanAction
  oldValue : Option String
  newValue : Option String
  error : Option String
  deriving DecidableEq, Repr

structure BulkNode where
  nodeId : String
  results : List BulkItem
  deriving DecidableEq, Repr

structure BulkResponse where
  operationId : Option String
  dryRun : Bool
  prodNodeIds : List String
  prodNodeCount : Nat
  counts : BulkCounts
  perNode : List BulkNode
  deriving DecidableEq, Repr

def NodePlan.report (plan : NodePlan) : BulkNode where
  nodeId := plan.nodeId
  results := plan.items.map fun item =>
    ⟨item.key, item.action, item.oldValue, item.newValue, item.error⟩

def bulkResponse (operationId : Option String) (dryRun : Bool) (plans : List NodePlan) :
    BulkResponse where
  operationId
  dryRun
  prodNodeIds := prodIdsOf plans
  prodNodeCount := (prodIdsOf plans).length
  counts := ((plans.flatMap (·.items)).map (·.action)).foldl .count .zero
  perNode := plans.map (·.report)

section
variable (fold : String → String) (tables : Tables)

/-- What `load_plans` makes for a node. -/
def loadPlan (add : SortedMap String String) (remove : List String) (id : String) : NodePlan :=
  let found := nodeExists fold tables id
  planNode (if found then fetchTags fold tables id else []) id found add remove

/-- `bulk` with nothing else going on: the answer, and the tables it leaves. -/
def bulkOn (body : BulkBody) (operationId : String) : Except TagError (BulkResponse × Tables) := do
  let (ids, remove) ← body.targets
  let plans := ids.map (loadPlan fold tables body.add remove)
  if body.dryRun then return (bulkResponse none true plans, tables)
  ensureProd (prodIdsOf plans) body.confirmProd
  return (bulkResponse (some operationId) false plans,
    applyAll fold (plans.flatMap (·.writes)) tables)

end

/-! ## What is asked for -/

/-- The center's tags of a node. -/
def centerMap (rows : List StoredTag) : SortedMap String String :=
  .ofList ((rows.filter (·.source == .center)).map fun row => (row.key, row.value))

/-- Tags, and the keys that were refused. -/
structure Granted where
  tags : SortedMap String String
  refused : List String
  deriving DecidableEq

/-- A new key needs room. -/
def Granted.add (granted : Granted) (entry : String × String) : Granted :=
  if granted.tags.contains entry.1 = true ∨ granted.tags.keys.length < maxCenterTags then
    { granted with tags := granted.tags.insert entry.1 entry.2 }
  else { granted with refused := granted.refused ++ [entry.1] }

def without (tags : SortedMap String String) (remove : List String) : SortedMap String String :=
  tags.filter fun key _ => decide (key ∉ remove)

/-- The keys are removed, and then the pairs are added in the order of their keys. -/
def asked (add : SortedMap String String) (remove : List String) (tags : SortedMap String String) :
    Granted :=
  add.entries.foldl .add ⟨without tags remove, []⟩

/-- The value is that of the row that is effective for the key. -/
def EffectiveIs (rows : List StoredTag) (key : String) (value : Option String) : Prop :=
  ∀ v, value = some v ↔ ∃ tag, Chosen rows key tag ∧ tag.value = v

/-- A change of the rows of a node, and its plan. -/
structure Bulked (add : SortedMap String String) (remove : List String)
    (before after : List StoredTag) (plan : NodePlan) : Prop where
  others : otherRows after = otherRows before
  distinct : Distinct after
  tags : centerMap after = (asked add remove (centerMap before)).tags
  refused : (plan.items.filter (·.action = .error)).map (·.key) =
    (asked add remove (centerMap before)).refused
  errors : ∀ item ∈ plan.items,
    item.error = if item.action = .error then some "tag_limit_exceeded" else none
  limit : centerCount before ≤ maxCenterTags → centerCount after ≤ maxCenterTags
  effective : ∀ item ∈ plan.items,
    EffectiveIs before item.key item.effectiveBefore ∧
      EffectiveIs after item.key item.effectiveAfter

/-! ## The center's tags as a map -/

section
variable {rows : List StoredTag}

theorem lookup_centerMap (h : Distinct rows) (key : String) :
    (centerMap rows).lookup key = centerValue rows key := by
  have hsame : ∀ a ∈ rows.filter (·.source == .center), ∀ b ∈ rows.filter (·.source == .center),
      a.key = b.key → a = b := by
    intro a ha b hb hkey
    obtain ⟨hina, hsource⟩ := List.mem_filter.mp ha
    obtain ⟨hinb, hsource'⟩ := List.mem_filter.mp hb
    rw [beq_iff_eq] at hsource hsource'
    exact h.eq hina hinb hkey (hsource.trans hsource'.symm)
  refine Option.ext fun value => ?_
  rw [centerMap, SortedMap.lookup_ofList_iff]
  · simp only [List.mem_map, centerValue, Option.map_eq_some_iff]
    constructor
    · rintro ⟨row, hrow, heq⟩
      obtain ⟨rfl, rfl⟩ := Prod.mk.inj heq
      obtain ⟨hmem, hsource⟩ := List.mem_filter.mp hrow
      cases hfind : rows.find? fun other => other.source == .center && other.key == row.key with
      | none =>
        have hno := List.find?_eq_none.mp hfind row hmem
        simp [beq_iff_eq.mp hsource] at hno
      | some found =>
        have hfound := List.find?_some hfind
        rw [Bool.and_eq_true] at hfound
        have hin : found ∈ rows.filter (·.source == .center) :=
          List.mem_filter.mpr ⟨List.mem_of_find?_eq_some hfind, hfound.1⟩
        exact ⟨found, rfl, congrArg _ (hsame found hin row hrow (beq_iff_eq.mp hfound.2))⟩
    · rintro ⟨row, hfind, rfl⟩
      have hfound := List.find?_some hfind
      rw [Bool.and_eq_true, beq_iff_eq, beq_iff_eq] at hfound
      refine ⟨row, List.mem_filter.mpr ⟨List.mem_of_find?_eq_some hfind, ?_⟩, ?_⟩
      · rw [hfound.1]
        rfl
      · rw [hfound.2]
  · intro a ha b hb hkey
    obtain ⟨row, hrow, rfl⟩ := List.mem_map.mp ha
    obtain ⟨row', hrow', rfl⟩ := List.mem_map.mp hb
    rw [hsame row hrow row' hrow' hkey]

theorem centerKeys_eq (h : Distinct rows) : centerKeys rows = (centerMap rows).keys.toFinset := by
  ext key
  rw [mem_centerKeys, List.mem_toFinset, SortedMap.mem_keys, SortedMap.contains,
    lookup_centerMap h]

theorem lookup_without (tags : SortedMap String String) (remove : List String) (key : String) :
    (without tags remove).lookup key = if key ∈ remove then none else tags.lookup key := by
  rw [without, SortedMap.lookup_filter]
  by_cases hkey : key ∈ remove
  · rw [if_pos hkey]
    cases tags.lookup key <;> simp [hkey]
  · rw [if_neg hkey]
    cases tags.lookup key <;> simp [hkey]

theorem insert_self {tags : SortedMap String String} {key value : String}
    (h : tags.lookup key = some value) : tags.insert key value = tags := by
  refine SortedMap.ext_lookup fun other => ?_
  rw [SortedMap.lookup_insert]
  split
  · next heq => rw [heq, h]
  · rfl

end

/-! ## Effective values -/

section
variable {rows : List StoredTag}

theorem valueBefore_eq (key : String) : valueBefore rows key = (chosen rows key).map (·.value) := by
  rw [valueBefore, lookup_effectiveOf, effectiveTag]
  cases chosen rows key <;> rfl

theorem effectiveIs_chosen (h : Distinct rows) (key : String) :
    EffectiveIs rows key ((chosen rows key).map (·.value)) := by
  intro value
  rw [Option.map_eq_some_iff]
  exact exists_congr fun tag => and_congr_left' (chosen_eq_some h)

/-- The effective value is the center's, or else it is of the other rows. -/
theorem chosen_value (h : CenterValid rows) (key : String) :
    (chosen rows key).map (·.value) = (centerValue rows key).or
      (((findSource (otherRows rows) key .node).or
        (findSource (otherRows rows) key .system)).map (·.value)) := by
  rw [chosen, Option.or_assoc, Option.map_or, findSource_center h,
    findSource_otherRows (by decide), findSource_otherRows (by decide)]

theorem chosen_value_congr {rows' : List StoredTag} (h : CenterValid rows)
    (h' : CenterValid rows') {key : String} (hcenter : centerValue rows key = centerValue rows' key)
    (hothers : otherRows rows = otherRows rows') :
    (chosen rows key).map (·.value) = (chosen rows' key).map (·.value) := by
  rw [chosen_value h, chosen_value h', hcenter, hothers]

/-- A free key has a row of the center or of the node, or no row that counts. -/
theorem valueBefore_none {key : String} (hformed : ∀ tag ∈ rows, tag.Formed) (hkey : Free key)
    (hcenter : centerValue rows key = none)
    (hnode : (rows.find? fun row => row.key == key && row.source == .node) = none) :
    valueBefore rows key = none := by
  rw [valueBefore_eq, Option.map_eq_none_iff]
  cases hchosen : chosen rows key with
  | none => rfl
  | some tag =>
    obtain ⟨hmem, -, hnamed, -⟩ := chosen_chosen hchosen
    cases hsource : tag.source with
    | center =>
      have hno := List.find?_eq_none.mp (Option.map_eq_none_iff.mp hcenter) tag hmem
      simp [hsource, hnamed] at hno
    | node =>
      have hno := List.find?_eq_none.mp hnode tag hmem
      simp [hsource, hnamed] at hno
    | system =>
      have hreserved := hformed tag hmem
      rw [StoredTag.Formed, hsource] at hreserved
      rw [hnamed, hkey.2] at hreserved
      cases hreserved.2

end

/-! ## The plan follows what is asked for -/

def PlanItem.Changing (item : PlanItem) : Prop :=
  item.action = .added ∨ item.action = .changed ∨ item.action = .removed

/-- What an item says of a key that it does not change. -/
structure PlanItem.Keeps (rows : List StoredTag) (planning : Planning) (item : PlanItem) :
    Prop where
  overlay : planning.overlay.lookup item.key = none
  before : item.effectiveBefore = valueBefore rows item.key
  after : item.effectiveAfter = valueBefore rows item.key

/-- Once the keys of `done` are planned, the plan has done what was asked for them. -/
structure Follows (rows : List StoredTag) (done : List String) (planning : Planning)
    (granted : Granted) : Prop where
  named : planning.items.map (·.key) = done
  apart : ∀ key ∉ done, planning.overlay.lookup key = none
  tags : ∀ key, granted.tags.lookup key =
    (planning.overlay.lookup key).getD (centerValue rows key)
  keys : planning.centerKeys = granted.tags.keys.toFinset
  refused : (planning.items.filter (·.action = .error)).map (·.key) = granted.refused
  errors : ∀ item ∈ planning.items,
    item.error = if item.action = .error then some "tag_limit_exceeded" else none
  keeps : ∀ item ∈ planning.items, ¬ item.Changing → item.Keeps rows planning

section
variable {rows : List StoredTag} {done : List String} {planning : Planning} {granted : Granted}

/-- A key that is not planned yet has the value that was read. -/
theorem Follows.unplanned (h : Follows rows done planning granted) {key : String}
    (hkey : key ∉ done) : granted.tags.lookup key = centerValue rows key := by
  rw [h.tags, h.apart key hkey]
  rfl

/-- An item that changes nothing. -/
theorem Follows.quiet (h : Follows rows done planning granted) {item : PlanItem}
    {key : String} (hname : item.key = key) (hkey : key ∉ done)
    (herror : item.error = if item.action = .error then some "tag_limit_exceeded" else none)
    (hbefore : item.effectiveBefore = valueBefore rows key)
    (hafter : item.effectiveAfter = valueBefore rows key) :
    Follows rows (done ++ [key]) { planning with items := planning.items ++ [item] }
      { granted with
        refused := granted.refused ++ if item.action = .error then [key] else [] } where
  named := by rw [List.map_append, h.named, List.map_singleton, hname]
  apart := fun key hnot => h.apart key fun hmem => hnot (List.mem_append_left _ hmem)
  tags := h.tags
  keys := h.keys
  refused := by
    rw [List.filter_append, List.map_append, h.refused]
    by_cases hcase : item.action = .error <;> simp [hcase, hname]
  errors := by
    intro other hother
    rcases List.mem_append.mp hother with hother | hother
    · exact h.errors other hother
    · rw [List.mem_singleton.mp hother]
      exact herror
  keeps := by
    intro other hother hstill
    rcases List.mem_append.mp hother with hother | hother
    · obtain ⟨hoverlay, hrest, hrest'⟩ := h.keeps other hother hstill
      exact ⟨hoverlay, hrest, hrest'⟩
    · rw [List.mem_singleton.mp hother]
      subst hname
      exact ⟨h.apart item.key hkey, hbefore, hafter⟩

/-- An item that sets its key, or removes it. -/
theorem Follows.change (h : Follows rows done planning granted) {item : PlanItem}
    {key : String} (hname : item.key = key) (hkey : key ∉ done) (hchanging : item.Changing) (hnoerror : item.error = none)
    {value : Option String} {centerKeys : Finset String} {tags : SortedMap String String}
    (htags : ∀ other, tags.lookup other =
      if other = key then value else granted.tags.lookup other)
    (hkeys : centerKeys = tags.keys.toFinset) :
    Follows rows (done ++ [key])
      ⟨centerKeys, planning.items ++ [item], planning.overlay.insert key value⟩
      { granted with tags } where
  named := by rw [List.map_append, h.named, List.map_singleton, hname]
  apart := by
    intro other hnot
    rw [List.mem_append, List.mem_singleton, not_or] at hnot
    rw [SortedMap.lookup_insert, if_neg hnot.2, h.apart other hnot.1]
  tags := by
    intro other
    rw [htags, SortedMap.lookup_insert]
    split
    · rfl
    · exact h.tags other
  keys := hkeys
  refused := by
    have hno : item.action ≠ .error := by
      rintro herror
      rw [PlanItem.Changing, herror] at hchanging
      rcases hchanging with hfalse | hfalse | hfalse <;> cases hfalse
    rw [List.filter_append, List.map_append, h.refused]
    simp [hno]
  errors := by
    intro other hother
    rcases List.mem_append.mp hother with hother | hother
    · exact h.errors other hother
    · rw [List.mem_singleton.mp hother, hnoerror, if_neg]
      intro herror
      rw [PlanItem.Changing, herror] at hchanging
      rcases hchanging with hfalse | hfalse | hfalse <;> cases hfalse
  keeps := by
    intro other hother hstill
    rcases List.mem_append.mp hother with hother | hother
    · obtain ⟨hoverlay, hbefore, hafter⟩ := h.keeps other hother hstill
      refine ⟨?_, hbefore, hafter⟩
      have hne : other.key ≠ key := by
        intro heq
        rw [← heq, ← h.named] at hkey
        exact hkey (List.mem_map_of_mem hother)
      rw [SortedMap.lookup_insert, if_neg hne, hoverlay]
    · rw [List.mem_singleton.mp hother] at hstill
      exact absurd hchanging hstill

/-- An item that changes nothing and refuses nothing. -/
theorem Follows.still (h : Follows rows done planning granted) {item : PlanItem}
    {key : String} (hname : item.key = key) (hkey : key ∉ done) (haction : item.action ≠ .error) (herror : item.error = none)
    (hbefore : item.effectiveBefore = valueBefore rows key)
    (hafter : item.effectiveAfter = valueBefore rows key) :
    Follows rows (done ++ [key]) { planning with items := planning.items ++ [item] }
      granted := by
  have hquiet := h.quiet hname hkey (by rw [if_neg haction, herror]) hbefore hafter
  rw [if_neg haction, List.append_nil] at hquiet
  exact hquiet

theorem keys_without (tags : SortedMap String String) (key : String) :
    (without tags (done ++ [key])).keys.toFinset =
      (without tags done).keys.toFinset.erase key := by
  ext other
  simp only [Finset.mem_erase, List.mem_toFinset, SortedMap.mem_keys, SortedMap.contains,
    lookup_without, List.mem_append, List.mem_singleton]
  by_cases hother : other = key
  · simp [hother]
  · simp [hother]

theorem Follows.remove (hformed : ∀ tag ∈ rows, tag.Formed)
    (h : Follows rows done planning ⟨without (centerMap rows) done, []⟩) {key : String}
    (hkey : key ∉ done) (hfree : Free key) :
    Follows rows (done ++ [key]) (planRemove rows planning key)
      ⟨without (centerMap rows) (done ++ [key]), []⟩ := by
  have hlookup : ∀ other, (without (centerMap rows) (done ++ [key])).lookup other =
      if other = key then none else (without (centerMap rows) done).lookup other := by
    intro other
    rw [lookup_without, lookup_without]
    by_cases hother : other = key
    · simp [hother]
    · simp [hother]
  cases hold : centerValue rows key with
  | some old =>
    rw [planRemove, hold]
    dsimp only
    refine h.change ?_ ?_ ?_ ?_ ?_ ?_
    · rfl
    · exact hkey
    · exact .inr (.inr rfl)
    · rfl
    · exact hlookup
    · rw [h.keys, keys_without]
  | none =>
    have hsame : without (centerMap rows) (done ++ [key]) = without (centerMap rows) done := by
      refine SortedMap.ext_lookup fun other => ?_
      rw [hlookup]
      split
      · next heq => rw [heq, h.unplanned hkey, hold]
      · rfl
    rw [planRemove, hold, hsame]
    dsimp only
    cases hnode : rows.find? fun row => row.key == key && row.source == .node with
    | some row =>
      dsimp only
      refine h.still rfl ?_ ?_ ?_ ?_ ?_
      · exact hkey
      · exact fun hfalse => by cases hfalse
      all_goals rfl
    | none =>
      have hnone := (valueBefore_none hformed hfree hold hnode).symm
      dsimp only
      refine h.still rfl ?_ ?_ ?_ ?_ ?_
      · exact hkey
      · exact fun hfalse => by cases hfalse
      · rfl
      · exact hnone
      · exact hnone

theorem Follows.add (h : Follows rows done planning granted) {entry : String × String}
    (hkey : entry.1 ∉ done) :
    Follows rows (done ++ [entry.1]) (planAdd rows planning entry) (granted.add entry) := by
  obtain ⟨key, value⟩ := entry
  have hlookup := h.unplanned hkey
  have hcard : granted.tags.keys.length = planning.centerKeys.card := by
    rw [h.keys, List.toFinset_card_of_nodup granted.tags.nodup_keys]
  have hinsert : ∀ other, (granted.tags.insert key value).lookup other =
      if other = key then some value else granted.tags.lookup other :=
    fun other => SortedMap.lookup_insert ..
  have hkeys : (granted.tags.insert key value).keys.toFinset =
      insert key granted.tags.keys.toFinset := by
    ext other
    simp only [Finset.mem_insert, List.mem_toFinset, SortedMap.mem_keys, SortedMap.contains,
      hinsert]
    by_cases hother : other = key
    · simp [hother]
    · simp [hother]
  cases hold : centerValue rows key with
  | some old =>
    have hheld : granted.tags.contains key = true := by
      rw [SortedMap.contains, hlookup, hold]
      rfl
    rw [planAdd, hold, Granted.add, if_pos (Or.inl hheld)]
    dsimp only
    by_cases hsame : old = value
    · rw [if_pos hsame, insert_self (hlookup.trans (hold.trans (congrArg some hsame)))]
      refine h.still rfl ?_ ?_ ?_ ?_ ?_
      · exact hkey
      · exact fun hfalse => by cases hfalse
      all_goals rfl
    · rw [if_neg hsame]
      refine h.change ?_ ?_ ?_ ?_ ?_ ?_
      · rfl
      · exact hkey
      · exact .inr (.inl rfl)
      · rfl
      · exact hinsert
      · have hin : key ∈ granted.tags.keys.toFinset :=
          List.mem_toFinset.mpr (SortedMap.mem_keys.mpr hheld)
        rw [hkeys, Finset.insert_eq_of_mem hin, h.keys]
  | none =>
    have hnew : ¬ granted.tags.contains key = true := by
      rw [SortedMap.contains, hlookup, hold]
      exact Bool.false_ne_true
    rw [planAdd, hold, Granted.add, hcard]
    dsimp only
    by_cases hfull : maxCenterTags ≤ planning.centerKeys.card
    · rw [if_pos hfull, if_neg (not_or.mpr ⟨hnew, Nat.not_lt.mpr hfull⟩)]
      refine h.quiet rfl ?_ ?_ ?_ ?_
      · exact hkey
      all_goals rfl
    · rw [if_neg hfull, if_pos (Or.inr (Nat.not_le.mp hfull))]
      refine h.change ?_ ?_ ?_ ?_ ?_ ?_
      · rfl
      · exact hkey
      · exact .inl rfl
      · rfl
      · exact hinsert
      · rw [hkeys, h.keys]

theorem follows_start (hrows : Distinct rows) :
    Follows rows [] ⟨centerKeys rows, [], .empty⟩ ⟨without (centerMap rows) [], []⟩ := by
  have hwhole : without (centerMap rows) [] = centerMap rows :=
    SortedMap.ext_lookup fun key => by rw [lookup_without, if_neg List.not_mem_nil]
  rw [hwhole]
  constructor
  · rfl
  · exact fun key _ => rfl
  · exact fun key => lookup_centerMap hrows key
  · exact centerKeys_eq hrows
  · rfl
  · exact fun item hitem => absurd hitem List.not_mem_nil
  · exact fun item hitem => absurd hitem List.not_mem_nil

theorem follows_removals (hrows : Distinct rows) (hformed : ∀ tag ∈ rows, tag.Formed)
    {remove : List String} (hnodup : remove.Nodup) (hfree : ∀ key ∈ remove, Free key) :
    Follows rows remove (remove.foldl (planRemove rows) ⟨centerKeys rows, [], .empty⟩)
      ⟨without (centerMap rows) remove, []⟩ := by
  induction remove using List.reverseRecOn with
  | nil => exact follows_start hrows
  | append_singleton remove key ih =>
    obtain ⟨hnodup, -, happart⟩ := List.nodup_append.mp hnodup
    have hrest := ih hnodup fun other hother => hfree other (List.mem_append_left _ hother)
    rw [List.foldl_append]
    refine hrest.remove hformed (fun hmem => ?_) (hfree key (by simp))
    exact happart key hmem key (by simp) rfl

theorem follows_additions {add : List (String × String)}
    (h : Follows rows done planning granted) (hnodup : (done ++ add.map (·.1)).Nodup) :
    Follows rows (done ++ add.map (·.1)) (add.foldl (planAdd rows) planning)
      (add.foldl .add granted) := by
  induction add generalizing done planning granted with
  | nil =>
    rw [List.map_nil, List.append_nil]
    exact h
  | cons entry add ih =>
    rw [List.map_cons, List.append_cons] at hnodup ⊢
    refine ih (h.add fun hmem => ?_) hnodup
    have hfirst := (List.nodup_append.mp hnodup).1
    exact (List.nodup_append.mp hfirst).2.2 entry.1 hmem entry.1 (by simp) rfl

theorem follows_planning (hrows : Distinct rows) (hformed : ∀ tag ∈ rows, tag.Formed)
    {add : SortedMap String String} {remove : List String} (hnodup : remove.Nodup)
    (hfree : ∀ key ∈ remove, Free key) (hdisjoint : ∀ key ∈ remove, add.contains key = false) :
    Follows rows (remove ++ add.keys) (Tags.planning rows add remove)
      (asked add remove (centerMap rows)) := by
  refine follows_additions (follows_removals hrows hformed hnodup hfree) ?_
  refine List.nodup_append.mpr ⟨hnodup, add.nodup_keys, ?_⟩
  rintro key hkey other hother rfl
  have hno := hdisjoint key hkey
  rw [SortedMap.mem_keys.mp hother] at hno
  cases hno

end

/-! ## Carrying a plan out -/

section
variable {rows : List StoredTag} {after : SortedMap String Effective}

theorem fillEffective_key (item : PlanItem) : (fillEffective rows after item).key = item.key := by
  rw [fillEffective]
  split <;> rfl

theorem fillEffective_action (item : PlanItem) :
    (fillEffective rows after item).action = item.action := by
  rw [fillEffective]
  split <;> rfl

theorem fillEffective_error (item : PlanItem) :
    (fillEffective rows after item).error = item.error := by
  rw [fillEffective]
  split <;> rfl

theorem fillEffective_changing {item : PlanItem} (h : item.Changing) :
    (fillEffective rows after item).effectiveBefore = valueBefore rows item.key ∧
      (fillEffective rows after item).effectiveAfter =
        (after.lookup item.key).map (·.value) := by
  rw [fillEffective, if_pos]
  · exact ⟨rfl, rfl⟩
  · exact h

theorem fillEffective_still {item : PlanItem} (h : ¬ item.Changing) :
    fillEffective rows after item = item := if_neg h

theorem planNode_items (nodeId : String) (add : SortedMap String String) (remove : List String) :
    (planNode rows nodeId true add remove).items =
      (planning rows add remove).items.map (fillEffective rows
        (effectiveOf (applyOverlay rows (planning rows add remove).overlay))) := rfl

end

section
variable {fold : String → String} {tables : Tables} {add : SortedMap String String}
  {remove : List String}

theorem loadPlan_found {id : String} (h : nodeExists fold tables id = true) :
    loadPlan fold tables add remove id =
      planNode (fetchTags fold tables id) id true add remove := by
  simp [loadPlan, h]

theorem loadPlan_missing {id : String} (h : nodeExists fold tables id = false) :
    (loadPlan fold tables add remove id).found = false := by
  simp [loadPlan, h, planNode]

/-- What a request for the removal of `remove` and the addition of `add` was checked for. -/
structure Asks (add : SortedMap String String) (remove : List String) : Prop where
  valid : ∀ entry ∈ add.entries, validateCenterTag entry.1 entry.2 = .ok ()
  once : remove.Nodup
  free : ∀ key ∈ remove, Free key
  disjoint : ∀ key ∈ remove, add.contains key = false

theorem asks_of_targets {body : BulkBody} {ids remove : List String}
    (h : body.targets = .ok (ids, remove)) :
    remove = normalized body.remove ∧ Asks body.add remove := by
  obtain ⟨hadd, hdisjoint⟩ := targets_ok h
  simp only [BulkBody.targets, validateBulkKeys, Check.throw_bind, Check.bind_eq_ok,
    Check.ite_throw_eq_ok, Check.pure_eq_ok, Prod.mk.injEq] at h
  obtain ⟨⟨⟩, ⟨-, ⟨⟩, -, hremove⟩, ids, -, -, rfl⟩ := h
  refine ⟨rfl, hadd, SortedMap.nodup_keys _, fun key hkey => ?_, hdisjoint⟩
  have hchecked := Check.forM_eq_ok.mp hremove key hkey
  simp only [Check.bind_eq_ok] at hchecked
  obtain ⟨⟨⟩, hvalid, -⟩ := hchecked
  exact free_of_validate (Check.mapError_eq_ok.mp hvalid)

theorem plans_formed (h : Asks add remove) {ids : List String} :
    ∀ write ∈ (ids.map (loadPlan fold tables add remove)).flatMap (·.writes), write.Formed := by
  intro write hwrite
  obtain ⟨plan, hplan, hwrite⟩ := List.mem_flatMap.mp hwrite
  obtain ⟨id, -, rfl⟩ := List.mem_map.mp hplan
  obtain ⟨change, hchange, rfl⟩ := NodePlan.mem_writes.mp hwrite
  have hfound := NodePlan.found_of_mem hchange
  cases hexists : nodeExists fold tables id with
  | false =>
    rw [loadPlan_missing hexists] at hfound
    cases hfound
  | true =>
    rw [loadPlan_found hexists] at hchange
    exact planNode_formed h.valid h.disjoint hchange

/-- The center's values of a node after all plans are those of its own overlay. -/
theorem centerValue_loadPlans {ids : List String} {id : String} (hid : id ∈ ids)
    (hexists : nodeExists fold tables id = true) (key : String) :
    centerValue (fetchTags fold (applyAll fold
        ((ids.map (loadPlan fold tables add remove)).flatMap (·.writes)) tables) id) key =
      ((planning (fetchTags fold tables id) add remove).overlay.lookup key).getD
        (centerValue (fetchTags fold tables id) key) := by
  have hkept := @planning_kept (fetchTags fold tables id) add remove
  rw [Planning.Kept] at hkept
  rw [hkept]
  refine centerValue_plans ?_ ⟨_, List.mem_map_of_mem hid, ?_, ?_⟩ key
  · intro plan hplan hfound hnode
    obtain ⟨other, -, rfl⟩ := List.mem_map.mp hplan
    cases hother : nodeExists fold tables other with
    | false =>
      rw [loadPlan_missing hother] at hfound
      cases hfound
    | true =>
      rw [loadPlan_found hother] at hnode ⊢
      have hsame : fold other = fold id := hnode
      rw [planNode_changes, fetchTags_congr hsame]
  · rw [loadPlan_found hexists]
    rfl
  · rw [loadPlan_found hexists]
    rfl

theorem otherRows_loadPlans (ids : List String) (nodeId : String) :
    otherRows (fetchTags fold (applyAll fold
        ((ids.map (loadPlan fold tables add remove)).flatMap (·.writes)) tables) nodeId) =
      otherRows (fetchTags fold tables nodeId) := by
  refine otherRows_changes fun write hwrite => ?_
  obtain ⟨plan, -, hwrite⟩ := List.mem_flatMap.mp hwrite
  obtain ⟨change, -, heq⟩ := NodePlan.mem_writes.mp hwrite
  exact ⟨change, plan.nodeId, heq⟩

/-- Rows with the center's values of the overlay are the ones that were asked for. -/
theorem bulked_of_values (h : Asks add remove) {before after : List StoredTag}
    (hdistinct : Distinct before) (hvalid : CenterValid before)
    (hformed : ∀ tag ∈ before, tag.Formed) (hdistinct' : Distinct after)
    (hvalid' : CenterValid after)
    (hcenter : ∀ key, centerValue after key =
      ((planning before add remove).overlay.lookup key).getD (centerValue before key))
    (hothers : otherRows after = otherRows before) (id : String) :
    Bulked add remove before after (planNode before id true add remove) := by
  have hfollows := follows_planning hdistinct hformed h.once h.free h.disjoint
  have htags : centerMap after = (asked add remove (centerMap before)).tags :=
    SortedMap.ext_lookup fun key => by rw [lookup_centerMap hdistinct', hcenter, hfollows.tags]
  constructor
  · exact hothers
  · exact hdistinct'
  · exact htags
  · rw [planNode_items, List.filter_map, List.map_map, ← hfollows.refused]
    congr 1
    · funext item
      exact fillEffective_key item
    · congr 1
      funext item
      rw [Function.comp_apply, fillEffective_action]
  · intro item hitem
    rw [planNode_items] at hitem
    obtain ⟨planned, hplanned, rfl⟩ := List.mem_map.mp hitem
    rw [fillEffective_action, fillEffective_error]
    exact hfollows.errors planned hplanned
  · intro hle
    rw [centerCount_eq hdistinct', centerKeys_eq hdistinct', htags, ← hfollows.keys]
    rw [centerCount_eq hdistinct] at hle
    exact (planning_planned h.disjoint).1.limit hle
  · intro item hitem
    rw [planNode_items] at hitem
    obtain ⟨planned, hplanned, rfl⟩ := List.mem_map.mp hitem
    have hbefore := effectiveIs_chosen hdistinct planned.key
    have hafter := effectiveIs_chosen hdistinct' planned.key
    rw [fillEffective_key]
    by_cases hchanging : planned.Changing
    · obtain ⟨heq, heq'⟩ := @fillEffective_changing before
        (effectiveOf (applyOverlay before (planning before add remove).overlay)) planned hchanging
      rw [← valueBefore, valueBefore_eq] at heq'
      rw [heq, heq', valueBefore_eq]
      have hsame : (chosen (applyOverlay before (planning before add remove).overlay)
          planned.key).map (·.value) = (chosen after planned.key).map (·.value) := by
        refine chosen_value_congr (hvalid.applyOverlay _) hvalid' ?_ ?_
        · rw [centerValue_applyOverlay, hcenter]
        · rw [otherRows_applyOverlay, hothers]
      rw [hsame]
      exact ⟨hbefore, hafter⟩
    · obtain ⟨hoverlay, heq, heq'⟩ := hfollows.keeps planned hplanned hchanging
      rw [fillEffective_still hchanging, heq, heq', valueBefore_eq]
      have hsame : (chosen before planned.key).map (·.value) =
          (chosen after planned.key).map (·.value) := by
        refine chosen_value_congr hvalid hvalid' ?_ hothers.symm
        rw [hcenter, hoverlay]
        rfl
      rw [← hsame] at hafter
      exact ⟨hbefore, hafter⟩

/-- The plan of each node does to its rows what was asked for. -/
theorem bulked (hwell : WellFormed fold tables) (h : Asks add remove) {ids : List String}
    {id : String} (hid : id ∈ ids) (hexists : nodeExists fold tables id = true) :
    Bulked add remove (fetchTags fold tables id)
      (fetchTags fold (applyAll fold
        ((ids.map (loadPlan fold tables add remove)).flatMap (·.writes)) tables) id)
      (loadPlan fold tables add remove id) := by
  have hwell' : WellFormed fold (applyAll fold
      ((ids.map (loadPlan fold tables add remove)).flatMap (·.writes)) tables) :=
    hwell.applyAll (plans_formed h)
  rw [loadPlan_found hexists]
  exact bulked_of_values h (hwell.distinct id) (hwell.centerValid id)
    (fun tag htag => hwell.formed_of_mem htag) (hwell'.distinct id) (hwell'.centerValid id)
    (centerValue_loadPlans hid hexists) (otherRows_loadPlans ids id) id

/-- A node that no plan was made for keeps its rows. -/
theorem untouched_loadPlans {ids : List String} {nodeId : String}
    (h : ∀ id ∈ ids, nodeExists fold tables id = true → fold id ≠ fold nodeId) :
    fetchTags fold (applyAll fold
        ((ids.map (loadPlan fold tables add remove)).flatMap (·.writes)) tables) nodeId =
      fetchTags fold tables nodeId := by
  refine fetchTags_applyAll fun write hwrite => ?_
  obtain ⟨plan, hplan, hwrite⟩ := List.mem_flatMap.mp hwrite
  obtain ⟨id, hid, rfl⟩ := List.mem_map.mp hplan
  obtain ⟨change, hchange, rfl⟩ := NodePlan.mem_writes.mp hwrite
  have hfound := NodePlan.found_of_mem hchange
  cases hexists : nodeExists fold tables id with
  | false =>
    rw [loadPlan_missing hexists] at hfound
    cases hfound
  | true =>
    have hapart := h id hid hexists
    rw [loadPlan_found hexists]
    cases change <;> exact hapart

theorem bulkOn_ok {body : BulkBody} {operationId : String} {response : BulkResponse}
    {after : Tables} (h : bulkOn fold tables body operationId = .ok (response, after)) :
    ∃ ids remove, body.targets = .ok (ids, remove) ∧
      (body.dryRun = true → after = tables ∧
        response = bulkResponse none true (ids.map (loadPlan fold tables body.add remove))) ∧
      (body.dryRun = false →
        after = applyAll fold
          ((ids.map (loadPlan fold tables body.add remove)).flatMap (·.writes)) tables ∧
        response = bulkResponse (some operationId) false
          (ids.map (loadPlan fold tables body.add remove))) := by
  simp only [bulkOn, Check.bind_eq_ok] at h
  obtain ⟨⟨ids, remove⟩, htargets, h⟩ := h
  refine ⟨ids, remove, htargets, fun hdry => ?_, fun hdry => ?_⟩
  · rw [hdry, if_pos rfl] at h
    cases h
    exact ⟨rfl, rfl⟩
  · rw [hdry, if_neg Bool.false_ne_true] at h
    simp only [Check.bind_eq_ok] at h
    obtain ⟨⟨⟩, -, h⟩ := h
    cases h
    exact ⟨rfl, rfl⟩

/-- The nodes that are named get what was asked for and the others keep their rows, and a dry
run gives the same results and counts. -/
theorem bulk_exact {ok : System → Move Nat Unit Event → Prop} {sys : System}
    (hreach : (center fold).Reaches ok initial sys) {body : BulkBody} (hreal : body.dryRun = false)
    {operationId : String} {response : BulkResponse} {after : Tables}
    (h : bulkOn fold sys.shared.tables body operationId = .ok (response, after)) :
    ∃ ids, body.targets = .ok (ids, normalized body.remove) ∧
      (∀ id ∈ ids, nodeExists fold sys.shared.tables id = true →
        Bulked body.add (normalized body.remove) (fetchTags fold sys.shared.tables id)
          (fetchTags fold after id)
          (loadPlan fold sys.shared.tables body.add (normalized body.remove) id)) ∧
      (∀ nodeId, (∀ id ∈ ids, nodeExists fold sys.shared.tables id = true →
          fold id ≠ fold nodeId) →
        fetchTags fold after nodeId = fetchTags fold sys.shared.tables nodeId) ∧
      response.perNode = ids.map (fun id =>
        (loadPlan fold sys.shared.tables body.add (normalized body.remove) id).report) ∧
      ∃ dry, bulkOn fold sys.shared.tables { body with dryRun := true } operationId =
          .ok (dry, sys.shared.tables) ∧
        dry.perNode = response.perNode ∧ dry.counts = response.counts := by
  obtain ⟨ids, remove, htargets, -, hdone⟩ := bulkOn_ok h
  obtain ⟨rfl, rfl⟩ := hdone hreal
  obtain ⟨rfl, hasks⟩ := asks_of_targets htargets
  refine ⟨ids, htargets, ?_, ?_, ?_, ?_⟩
  · intro id hid hexists
    exact bulked (wellFormed_of_reaches hreach) hasks hid hexists
  · exact fun nodeId => untouched_loadPlans
  · exact List.map_map
  · refine ⟨bulkResponse none true _, ?_, rfl, rfl⟩
    have htargets' : ({ body with dryRun := true } : BulkBody).targets =
        .ok (ids, normalized body.remove) := htargets
    rw [bulkOn, htargets']
    rfl

end

/-- A node with a tag of its own for one of the keys. -/
def declaringMoves : List (Move Nat Unit Event) :=
  .event (.start 0 (.register ⟨"node-1", "1.0", .ofList [("role", "web")], "linux", "arm"⟩)) ::
    act 0 3 ++ .event (.start 0 (.setCenterTag "node-1" "env" ⟨"dev", none, none⟩)) :: act 0 3

/-- One tag is removed, and a declared one is overridden. -/
def overriding : BulkBody :=
  ⟨["node-1", "node-2"], .ofList [("role", "db")], ["env", "role-2"], false, none⟩

theorem bulk_exact_overriding : ∃ sys : System, ∃ response after ids,
    bulkOn id sys.shared.tables overriding "op" = .ok (response, after) ∧
      overriding.targets = .ok (ids, normalized overriding.remove) ∧ "node-1" ∈ ids ∧
      Bulked overriding.add (normalized overriding.remove)
        (fetchTags id sys.shared.tables "node-1") (fetchTags id after "node-1")
        (loadPlan id sys.shared.tables overriding.add (normalized overriding.remove) "node-1") := by
  have hrun : ((center id).run (fun _ _ => true) initial declaringMoves).any (fun sys =>
      match bulkOn id sys.shared.tables overriding "op" with
      | .ok (response, _) => response.counts = ⟨1, 0, 0, 1, 0, 2, 0⟩ &&
          nodeExists id sys.shared.tables "node-1"
      | .error _ => false) = true := by
    decide +kernel
  obtain ⟨sys, hreach, hcheck⟩ := Machine.exists_reaches_of_run (fun _ _ _ => trivial) hrun
  cases hbulk : bulkOn id sys.shared.tables overriding "op" with
  | error _ =>
    rw [hbulk] at hcheck
    cases hcheck
  | ok result =>
    obtain ⟨response, after⟩ := result
    rw [hbulk, Bool.and_eq_true] at hcheck
    obtain ⟨ids, htargets, hnodes, -⟩ := bulk_exact hreach rfl hbulk
    have hids : overriding.targets = .ok (["node-1", "node-2"], ["env", "role-2"]) := by
      decide +kernel
    have hid : "node-1" ∈ ids := by
      rw [hids] at htargets
      cases htargets
      exact List.mem_cons_self
    exact ⟨sys, response, after, ids, hbulk, htargets, hid, hnodes "node-1" hid hcheck.2⟩

end Novbot.Tags
