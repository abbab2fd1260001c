import Novbot.Tags.Limits

/-!
# Confirmation of changes to production nodes

A request that changes the center's tags has to be confirmed with the number of its nodes
that are production before or after it.  Whether a node is production depends on the
center's value of `env` and on the rows of the other sources (`countsAsProd_eq`), which a
change leaves alone.

The count that is confirmed is made from what was read, with each node as the request spells
it.  In every run where no read is behind what is committed, a request is about to commit
with the right confirmation if and only if it names no production node twice
(`prod_changes_confirmed_iff`).
-/

namespace Novbot.Tags

open Concurrent

/-! ## Which rows decide -/

/-- The rows that no request changes. -/
def otherRows (rows : List StoredTag) : List StoredTag := rows.filter fun row => row.source != .center

def prodOf (center : Option String) (others : List StoredTag) : Bool :=
  others.any (·.invalidProd) ||
    (center.or (((findSource others "env" .node).or (findSource others "env" .system)).map
      (·.value))).any (· == "prod")

/-- The rows of the center are valid. -/
def CenterValid (rows : List StoredTag) : Prop :=
  ∀ row ∈ rows, row.source = .center → row.valid = true

section
variable {rows rows' : List StoredTag}

theorem any_invalidProd : (otherRows rows).any (·.invalidProd) = rows.any (·.invalidProd) := by
  rw [otherRows, List.any_filter]
  congr 1
  funext row
  cases hsource : row.source <;> simp [StoredTag.invalidProd, hsource]

theorem findSource_otherRows {key : String} {source : Source} (h : source ≠ .center) :
    findSource (otherRows rows) key source = findSource rows key source := by
  rw [findSource, findSource, otherRows, List.find?_filter]
  congr 1
  funext row
  rw [Bool.eq_iff_iff, decide_eq_true_eq, and_iff_right_of_imp]
  intro hrow
  rw [Bool.and_eq_true, beq_iff_eq] at hrow
  simpa [hrow.2] using h

theorem findSource_center (h : CenterValid rows) (key : String) :
    (findSource rows key .center).map (·.value) = centerValue rows key := by
  rw [findSource, centerValue]
  congr 1
  induction rows with
  | nil => rfl
  | cons row rows ih =>
    have hrest := ih fun later hlater => h later (.tail _ hlater)
    have hsame : (row.valid && row.key == key && row.source == .center) =
        (row.source == .center && row.key == key) := by
      by_cases hsource : row.source = .center
      · rw [h row List.mem_cons_self hsource, Bool.true_and, Bool.and_comm]
      · rw [beq_eq_false_iff_ne.mpr hsource, Bool.and_false, Bool.false_and]
    rw [List.find?_cons, List.find?_cons, hsame, hrest]

/-- Production is decided by the center's value of `env` and by the other rows. -/
theorem countsAsProd_eq (h : CenterValid rows) :
    countsAsProd rows = prodOf (centerValue rows "env") (otherRows rows) := by
  have hchosen : (chosen rows "env").map (·.value) = (centerValue rows "env").or
      (((findSource (otherRows rows) "env" .node).or
        (findSource (otherRows rows) "env" .system)).map (·.value)) := by
    rw [chosen, Option.or_assoc, Option.map_or, findSource_center h,
      findSource_otherRows (by decide), findSource_otherRows (by decide)]
  rw [countsAsProd, prodOf, any_invalidProd, lookup_effectiveOf, ← hchosen, effectiveTag]
  cases chosen rows "env" <;> rfl

theorem countsAsProd_congr (h : CenterValid rows) (h' : CenterValid rows')
    (hcenter : centerValue rows "env" = centerValue rows' "env")
    (hothers : otherRows rows = otherRows rows') : countsAsProd rows = countsAsProd rows' := by
  rw [countsAsProd_eq h, countsAsProd_eq h', hcenter, hothers]

/-! ## What an overlay changes -/

theorem centerValue_overlayOne {entry : String × Option String} {key : String} :
    centerValue (overlayOne rows entry) key =
      if key = entry.1 then entry.2 else centerValue rows key := by
  obtain ⟨changed, value⟩ := entry
  rw [centerValue, overlayOne, List.find?_append, List.find?_filter]
  dsimp only
  by_cases hkey : key = changed
  · subst hkey
    rw [if_pos rfl, List.find?_eq_none.mpr]
    · cases value <;> simp [centerTag]
    · intro row _ hrow
      rw [decide_eq_true_eq, Bool.not_eq_true'] at hrow
      rw [hrow.1] at hrow
      cases hrow.2
  · rw [if_neg hkey, centerValue]
    have hsame : (fun row : StoredTag => decide ((!(row.source == .center && row.key == changed)) =
        true ∧ (row.source == .center && row.key == key) = true)) =
          fun row => row.source == .center && row.key == key := by
      funext row
      rw [Bool.eq_iff_iff, decide_eq_true_eq, and_iff_right_of_imp]
      intro hrow
      rw [Bool.and_eq_true, beq_iff_eq, beq_iff_eq] at hrow
      simp [hrow.2, hkey]
    rw [hsame]
    cases value with
    | none => simp
    | some value => simp [centerTag, Ne.symm hkey]

theorem otherRows_overlayOne {entry : String × Option String} :
    otherRows (overlayOne rows entry) = otherRows rows := by
  rw [otherRows, overlayOne, List.filter_append, List.filter_filter]
  have hnew : ((entry.2.map (centerTag entry.1)).toList.filter fun row =>
      row.source != .center) = [] := by
    cases entry.2 <;> simp [centerTag]
  rw [hnew, List.append_nil, otherRows]
  congr 1
  funext row
  cases hsource : row.source <;> simp

theorem CenterValid.overlayOne (h : CenterValid rows) (entry : String × Option String) :
    CenterValid (overlayOne rows entry) := by
  intro row hrow hsource
  rcases List.mem_append.mp hrow with hrow | hrow
  · exact h row (List.mem_filter.mp hrow).1 hsource
  · obtain ⟨value, -, rfl⟩ := Option.map_eq_some_iff.mp (Option.mem_toList.mp hrow)
    rfl

theorem centerValue_applyOverlay {overlay : SortedMap String (Option String)} {key : String} :
    centerValue (applyOverlay rows overlay) key =
      (overlay.lookup key).getD (centerValue rows key) := by
  obtain ⟨entries, hsorted⟩ := overlay
  show centerValue (entries.foldl overlayOne rows) key = (entries.lookup key).getD _
  induction entries generalizing rows with
  | nil => rfl
  | cons entry entries ih =>
    obtain ⟨hentry, hsorted⟩ := List.pairwise_cons.mp hsorted
    rw [List.foldl_cons, ih hsorted, centerValue_overlayOne, List.lookup_cons]
    by_cases hkey : key = entry.1
    · have hnone : entries.lookup key = none := by
        rw [List.lookup_eq_none_iff]
        intro later hlater
        simpa [hkey] using ne_of_lt (hentry later hlater)
      simp [hkey ▸ hnone, hkey]
    · rw [if_neg hkey, beq_eq_false_iff_ne.mpr hkey]

theorem otherRows_applyOverlay (overlay : SortedMap String (Option String)) :
    otherRows (applyOverlay rows overlay) = otherRows rows := by
  rw [applyOverlay]
  induction overlay.entries generalizing rows with
  | nil => rfl
  | cons entry entries ih => rw [List.foldl_cons, ih, otherRows_overlayOne]

theorem CenterValid.applyOverlay (h : CenterValid rows)
    (overlay : SortedMap String (Option String)) : CenterValid (applyOverlay rows overlay) := by
  rw [Tags.applyOverlay]
  induction overlay.entries generalizing rows with
  | nil => exact h
  | cons entry entries ih => exact ih (h.overlayOne entry)

/-! ## The overlay of a list of changes -/

def Change.entry : Change → String × Option String
  | .set key value => (key, some value)
  | .remove key => (key, none)

def overlayOf (changes : List Change) : SortedMap String (Option String) :=
  .ofList (changes.map (·.entry))

theorem overlayOf_concat (changes : List Change) (change : Change) :
    overlayOf (changes ++ [change]) =
      (overlayOf changes).insert change.entry.1 change.entry.2 := by
  simp [overlayOf, SortedMap.ofList]

/-- The overlay of a plan so far is that of its changes. -/
def Planning.Kept (planning : Planning) : Prop :=
  planning.overlay = overlayOf (planning.items.flatMap (·.changes))

theorem Planning.Kept.quiet {planning : Planning} (h : planning.Kept) {item : PlanItem}
    (hitem : item.changes = []) :
    Kept { planning with items := planning.items ++ [item] } := by
  rw [Planning.Kept, List.flatMap_append, List.flatMap_singleton, hitem, List.append_nil]
  exact h

theorem Planning.Kept.change {planning : Planning} (h : planning.Kept) {item : PlanItem}
    (c : Change) (hitem : item.changes = [c]) (keys : Finset String) :
    Kept ⟨keys, planning.items ++ [item], planning.overlay.insert c.entry.1 c.entry.2⟩ := by
  rw [Planning.Kept, List.flatMap_append, List.flatMap_singleton, hitem, overlayOf_concat, ← h]

theorem Planning.Kept.remove {planning : Planning} (h : planning.Kept) (key : String) :
    (planRemove rows planning key).Kept := by
  rw [planRemove]
  split
  · exact h.change (.remove key) rfl _
  · split
    · exact h.quiet rfl
    · exact h.quiet rfl

theorem Planning.Kept.add {planning : Planning} (h : planning.Kept) (entry : String × String) :
    (planAdd rows planning entry).Kept := by
  rw [planAdd]
  split
  · split
    · exact h.quiet rfl
    · exact h.change (.set entry.1 entry.2) rfl _
  · split
    · exact h.quiet rfl
    · exact h.change (.set entry.1 entry.2) rfl _

theorem planning_kept (add : SortedMap String String) (remove : List String) :
    (planning rows add remove).Kept := by
  have hremoved : (remove.foldl (planRemove rows) ⟨centerKeys rows, [], .empty⟩).Kept := by
    have hstart : Planning.Kept ⟨centerKeys rows, [], .empty⟩ := rfl
    generalize (⟨centerKeys rows, [], .empty⟩ : Planning) = start at hstart
    induction remove generalizing start with
    | nil => exact hstart
    | cons key remove ih => exact ih _ (hstart.remove key)
  rw [planning]
  generalize remove.foldl (planRemove rows) ⟨centerKeys rows, [], .empty⟩ = start at hremoved
  induction add.entries generalizing start with
  | nil => exact hremoved
  | cons entry entries ih => exact ih _ (hremoved.add entry)

/-- A plan counts its node as production before its changes or after them. -/
theorem planNode_prod (nodeId : String) (add : SortedMap String String) (remove : List String) :
    (planNode rows nodeId true add remove).prod = (countsAsProd rows || countsAsProd
      (applyOverlay rows (overlayOf (planNode rows nodeId true add remove).changes))) := by
  rw [planNode_changes, ← planning_kept]
  rfl

end

/-! ## What a write changes -/

section
variable {fold : String → String} {tables : Tables}

def Write.nodeId : Write → String
  | .upsertNode node => node.nodeId
  | .insertTag nodeId _ => nodeId
  | .deleteReported nodeId => nodeId
  | .deleteCenter nodeId _ => nodeId

/-- A write leaves the rows of other nodes alone. -/
theorem fetchTags_apply {write : Write} {nodeId : String} (h : fold write.nodeId ≠ fold nodeId) :
    fetchTags fold (write.apply fold tables) nodeId = fetchTags fold tables nodeId := by
  rw [fetchTags, fetchTags]
  congr 1
  cases write with
  | upsertNode node => rfl
  | insertTag other tag =>
    show (insertTag fold tables.tags other tag).filter _ = _
    rw [insertTag]
    split
    · -- The rows that are updated are of the other node.
      induction tables.tags with
      | nil => rfl
      | cons row tags ih =>
        rw [List.map_cons, List.filter_cons, List.filter_cons, ih]
        split
        · next hheld =>
          have hnode := (holds_iff.mp hheld).1
          have hother : sameNode fold row.nodeId nodeId = false :=
            Bool.eq_false_iff.mpr fun hsame => h (hnode.symm.trans (sameNode_iff.mp hsame))
          simp [hother]
        · rfl
    · rw [List.filter_append]
      have hother : sameNode fold other nodeId = false :=
        Bool.eq_false_iff.mpr fun hsame => h (sameNode_iff.mp hsame)
      simp [hother]
  | deleteReported other =>
    show (tables.tags.filter _).filter _ = _
    rw [List.filter_filter]
    refine List.filter_congr fun row _ => ?_
    cases hsame : sameNode fold row.nodeId nodeId with
    | false => rfl
    | true =>
      have hother : sameNode fold row.nodeId other = false :=
        Bool.eq_false_iff.mpr fun hnode =>
          h ((sameNode_iff.mp hnode).symm.trans (sameNode_iff.mp hsame))
      simp [hother]
  | deleteCenter other key =>
    show (tables.tags.filter _).filter _ = _
    rw [List.filter_filter]
    refine List.filter_congr fun row _ => ?_
    cases hsame : sameNode fold row.nodeId nodeId with
    | false => rfl
    | true =>
      have hother : sameNode fold row.nodeId other = false :=
        Bool.eq_false_iff.mpr fun hnode =>
          h ((sameNode_iff.mp hnode).symm.trans (sameNode_iff.mp hsame))
      simp [TagRow.holds, hother]

theorem fetchTags_applyAll {writes : List Write} {nodeId : String}
    (h : ∀ write ∈ writes, fold write.nodeId ≠ fold nodeId) :
    fetchTags fold (applyAll fold writes tables) nodeId = fetchTags fold tables nodeId := by
  induction writes generalizing tables with
  | nil => rfl
  | cons write writes ih =>
    refine (ih fun later hlater => h later (.tail _ hlater)).trans ?_
    exact fetchTags_apply (h write List.mem_cons_self)

/-- A change writes no row of another source. -/
theorem otherRows_change (change : Change) (other nodeId : String) :
    otherRows (fetchTags fold ((change.write other).apply fold tables) nodeId) =
      otherRows (fetchTags fold tables nodeId) := by
  simp only [otherRows, fetchTags, List.filter_map, List.filter_filter]
  congr 1
  cases change with
  | set key value =>
    show (insertTag fold tables.tags other (centerTag key value)).filter _ = _
    rw [insertTag]
    split
    · induction tables.tags with
      | nil => rfl
      | cons row tags ih =>
        rw [List.map_cons, List.filter_cons, List.filter_cons, ih]
        split
        · next hheld =>
          have hsource : row.tag.source = .center := (holds_iff.mp hheld).2.1
          simp [hsource]
        · rfl
    · rw [List.filter_append]
      simp [centerTag]
  | remove key =>
    show (tables.tags.filter _).filter _ = _
    rw [List.filter_filter]
    refine List.filter_congr fun row _ => ?_
    cases hsource : row.tag.source <;> simp [TagRow.holds, hsource]

theorem otherRows_changes {writes : List Write} {nodeId : String}
    (h : ∀ write ∈ writes, ∃ (change : Change) (other : String), change.write other = write) :
    otherRows (fetchTags fold (applyAll fold writes tables) nodeId) =
      otherRows (fetchTags fold tables nodeId) := by
  induction writes generalizing tables with
  | nil => rfl
  | cons write writes ih =>
    obtain ⟨change, other, rfl⟩ := h write List.mem_cons_self
    refine (ih fun later hlater => h later (.tail _ hlater)).trans ?_
    exact otherRows_change change other nodeId

theorem applyAll_concat (writes : List Write) (write : Write) :
    applyAll fold (writes ++ [write]) tables =
      write.apply fold (applyAll fold writes tables) := by
  simp [applyAll]

/-- The changes of one node do to the center's values what their overlay does. -/
theorem centerValue_changes (changes : List Change) {other nodeId : String}
    (h : fold other = fold nodeId) (key : String) :
    centerValue (fetchTags fold (applyAll fold (changes.map (Change.write other)) tables) nodeId)
        key =
      ((overlayOf changes).lookup key).getD (centerValue (fetchTags fold tables nodeId) key) := by
  induction changes using List.reverseRecOn with
  | nil => rfl
  | append_singleton changes change ih =>
    rw [List.map_append, List.map_singleton, applyAll_concat, overlayOf_concat,
      SortedMap.lookup_insert]
    cases change with
    | set changed value =>
      rw [Change.write, centerValue_insertTag, ih]
      by_cases hkey : key = changed
      · simp [hkey, h, centerTag, Change.entry]
      · simp [hkey, Ne.symm hkey, centerTag, Change.entry]
    | remove changed =>
      rw [Change.write, centerValue_deleteCenter, ih]
      by_cases hkey : key = changed
      · simp [hkey, h, Change.entry]
      · simp [hkey, Ne.symm hkey, Change.entry]

theorem WellFormed.centerValid (h : WellFormed fold tables) (nodeId : String) :
    CenterValid (fetchTags fold tables nodeId) := by
  intro row hrow hsource
  have hformed := h.formed_of_mem hrow
  rw [StoredTag.Formed, hsource] at hformed
  exact hformed.1

end

/-! ## What a request is confirmed for -/

/-- The confirmation that a request for a change came with. -/
def Request.confirmation : Request → Option (Option Nat)
  | .setCenterTag _ _ body => some body.confirmProd
  | .deleteCenterTag _ _ confirmProd => some confirmProd
  | .bulk body => some body.confirmProd
  | .register _ => none

section
variable (fold : String → String)

/-- The node is production before the writes or after them. -/
def prodAround (before after : Tables) (nodeId : String) : Bool :=
  countsAsProd (fetchTags fold before nodeId) || countsAsProd (fetchTags fold after nodeId)

/-- The production nodes that a transaction locked, once for each time they were named. -/
def prodLocked (before after : Tables) (locked : List String) : List String :=
  (locked.filter (prodAround fold before after)).map fold

/-- No production node, or their number is confirmed, and each node that becomes production
or stops being it is one of them. -/
structure Confirmed (before after : Tables) (locked : List String) (confirm : Option Nat) :
    Prop where
  count : (prodLocked fold before after locked).toFinset = ∅ ∨
    confirm = some (prodLocked fold before after locked).toFinset.card
  changed : ∀ nodeId, countsAsProd (fetchTags fold before nodeId) ≠
    countsAsProd (fetchTags fold after nodeId) → fold nodeId ∈ prodLocked fold before after locked

end

theorem ensureProd_ok {ids : List String} {confirm : Option Nat} :
    ensureProd ids confirm = .ok () ↔ ids = [] ∨ confirm = some ids.length := by
  rw [ensureProd, Check.ite_throw_eq_ok]
  by_cases hids : ids = []
  · simp [hids, pure, Except.pure]
  · by_cases hconfirm : confirm = some ids.length
    · simp [hconfirm, pure, Except.pure]
    · simp [hids, hconfirm]

section
variable {fold : String → String} {tables : Tables} {loc : Loc} {writes : List Write}

/-- A change writes for no other node. -/
theorem Commits.changes (h : Commits loc writes) {request : Request} {confirm : Option Nat}
    (hrequest : loc.request = some request) (hconfirm : request.confirmation = some confirm) :
    ∀ write ∈ writes, ∃ (change : Change) (other : String), change.write other = write := by
  cases h with
  | @set nodeId key body _ _ _ _ _ _ =>
    intro write hwrite
    exact ⟨.set key body.value, nodeId, (List.mem_singleton.mp hwrite).symm⟩
  | @delete nodeId key _ _ _ _ _ _ =>
    intro write hwrite
    exact ⟨.remove key, nodeId, (List.mem_singleton.mp hwrite).symm⟩
  | bulk _ _ _ _ _ _ =>
    intro write hwrite
    obtain ⟨plan, -, hwrite⟩ := List.mem_flatMap.mp hwrite
    obtain ⟨change, -, heq⟩ := NodePlan.mem_writes.mp hwrite
    exact ⟨change, plan.nodeId, heq⟩
  | register hregister _ =>
    rw [hrequest] at hregister
    cases hregister
    cases hconfirm

theorem prod_overlay {tables' : Tables} (hwell : WellFormed fold tables)
    (hwell' : WellFormed fold tables') {nodeId : String}
    {overlay : SortedMap String (Option String)}
    (hvalue : centerValue (fetchTags fold tables' nodeId) "env" =
      (overlay.lookup "env").getD (centerValue (fetchTags fold tables nodeId) "env"))
    (hothers : otherRows (fetchTags fold tables' nodeId) =
      otherRows (fetchTags fold tables nodeId)) :
    countsAsProd (fetchTags fold tables' nodeId) =
      countsAsProd (applyOverlay (fetchTags fold tables nodeId) overlay) := by
  refine countsAsProd_congr (hwell'.centerValid nodeId)
    ((hwell.centerValid nodeId).applyOverlay overlay) ?_ ?_
  · rw [hvalue, centerValue_applyOverlay]
  · rw [hothers, otherRows_applyOverlay]

/-- The single check is about the node that is locked. -/
theorem single_counted {after : Tables} {nodeId : String} {confirm : Option Nat}
    {rows : List StoredTag} {overlay : SortedMap String (Option String)}
    (hrows : fetchTags fold tables nodeId = rows)
    (hafter : countsAsProd (fetchTags fold after nodeId) = countsAsProd (applyOverlay rows overlay))
    (hcheck : ensureSingleProd nodeId rows overlay confirm = .ok ()) :
    prodLocked fold tables after [nodeId] = [] ∨
      confirm = some (prodLocked fold tables after [nodeId]).length := by
  subst hrows
  rw [ensureSingleProd, ← hafter] at hcheck
  cases hprod : prodAround fold tables after nodeId with
  | false =>
    left
    simp [prodLocked, hprod]
  | true =>
    rw [prodAround] at hprod
    rw [hprod, if_pos rfl] at hcheck
    rcases ensureProd_ok.mp hcheck with hnone | hsome
    · cases hnone
    · right
      simpa [prodLocked, prodAround, hprod] using hsome

theorem centerValue_plans {plans : List NodePlan} {nodeId : String}
    {overlay : SortedMap String (Option String)}
    (hsame : ∀ plan ∈ plans, plan.found = true → fold plan.nodeId = fold nodeId →
      overlayOf plan.changes = overlay)
    (hsome : ∃ plan ∈ plans, plan.found = true ∧ fold plan.nodeId = fold nodeId) (key : String) :
    centerValue (fetchTags fold (applyAll fold (plans.flatMap (·.writes)) tables) nodeId) key =
      (overlay.lookup key).getD (centerValue (fetchTags fold tables nodeId) key) := by
  have htouches : ∀ plan : NodePlan, ∀ write ∈ plan.writes, write.touches fold nodeId →
      plan.found = true ∧ fold plan.nodeId = fold nodeId := by
    intro plan write hwrite htouch
    obtain ⟨change, hchange, rfl⟩ := NodePlan.mem_writes.mp hwrite
    refine ⟨NodePlan.found_of_mem hchange, ?_⟩
    cases change with
    | set key value => exact htouch.2
    | remove key => exact htouch
  induction plans generalizing tables with
  | nil =>
    obtain ⟨plan, hplan, -⟩ := hsome
    cases hplan
  | cons plan plans ih =>
    rw [List.flatMap_cons, applyAll, List.foldl_append]
    show centerValue (fetchTags fold (applyAll fold (plans.flatMap (·.writes))
      (applyAll fold plan.writes tables)) nodeId) key = _
    by_cases hlater : ∃ later ∈ plans, later.found = true ∧ fold later.nodeId = fold nodeId
    · rw [ih (fun later hmem => hsame later (.tail _ hmem)) hlater]
      by_cases hplan : plan.found = true ∧ fold plan.nodeId = fold nodeId
      · -- A node that is named again gets the same changes again.
        rw [NodePlan.writes, centerValue_changes plan.changes hplan.2,
          hsame plan List.mem_cons_self hplan.1 hplan.2]
        cases overlay.lookup key <;> rfl
      · rw [centerValue_applyAll fun write hwrite htouch =>
          hplan (htouches plan write hwrite htouch)]
    · rw [centerValue_applyAll]
      · obtain ⟨found, hfound, hnode⟩ := hsome
        rcases List.mem_cons.mp hfound with rfl | hmem
        · rw [NodePlan.writes, centerValue_changes found.changes hnode.2,
            hsame found List.mem_cons_self hnode.1 hnode.2]
        · exact absurd ⟨found, hmem, hnode⟩ hlater
      · intro write hwrite htouch
        obtain ⟨later, hmem, hwrite⟩ := List.mem_flatMap.mp hwrite
        exact hlater ⟨later, hmem, htouches later write hwrite htouch⟩

/-- Every read of the thread is as it is committed. -/
def Whole (fold : String → String) (tables : Tables) (loc : Loc) : Prop :=
  ∀ read ∈ loc.reads, fetchTags fold tables read.1 = read.2

theorem bulk_counted (hwell : WellFormed fold tables) (hwhole : Whole fold tables loc)
    {add : SortedMap String String} {remove : List String} {plans : List NodePlan}
    (hwell' : WellFormed fold (applyAll fold (plans.flatMap (·.writes)) tables))
    (hothers : ∀ nodeId, otherRows (fetchTags fold (applyAll fold (plans.flatMap (·.writes)) tables)
      nodeId) = otherRows (fetchTags fold tables nodeId))
    (hmade : ∀ plan ∈ plans, Made loc add remove plan)
    (hfound : ∀ plan ∈ plans, plan.prod = true → plan.found = true) :
    (foundIds plans).filter (prodAround fold tables
      (applyAll fold (plans.flatMap (·.writes)) tables)) = prodIdsOf plans := by
  have hprod : ∀ plan ∈ plans, plan.found = true → plan.prod = prodAround fold tables
      (applyAll fold (plans.flatMap (·.writes)) tables) plan.nodeId := by
    intro plan hplan hfound
    obtain ⟨rows, hread, heq⟩ := hmade plan hplan hfound
    have hrows : fetchTags fold tables plan.nodeId = rows := hwhole _ hread.read
    have hafter : countsAsProd (fetchTags fold
        (applyAll fold (plans.flatMap (·.writes)) tables) plan.nodeId) =
          countsAsProd (applyOverlay rows (overlayOf plan.changes)) := by
      rw [← hrows]
      refine prod_overlay hwell hwell' (centerValue_plans ?_ ⟨plan, hplan, hfound, rfl⟩ "env")
        (hothers plan.nodeId)
      intro other hother hfound' hnode
      obtain ⟨rows', hread', heq'⟩ := hmade other hother hfound'
      have hrows' : fetchTags fold tables other.nodeId = rows' := hwhole _ hread'.read
      have hsame : rows' = rows := by rw [← hrows', ← hrows, fetchTags_congr hnode]
      rw [heq', heq, hsame, planNode_changes, planNode_changes]
    rw [prodAround, hrows, hafter]
    have hplanned : (planNode rows plan.nodeId true add remove).prod = _ :=
      planNode_prod plan.nodeId add remove
    rw [← heq] at hplanned
    exact hplanned
  rw [foundIds, prodIdsOf, List.filter_map, List.filter_filter]
  congr 1
  refine List.filter_congr fun plan hplan => ?_
  cases hcase : plan.found with
  | true => simp [hprod plan hplan hcase]
  | false =>
    have hno : plan.prod = false := Bool.eq_false_iff.mpr fun htrue =>
      Bool.false_ne_true (hcase.symm.trans (hfound plan hplan htrue))
    simp [hno]

/-- The check of a request counts each node as often as it was named. -/
theorem Commits.counted (h : Commits loc writes) (hwell : WellFormed fold tables)
    (hwhole : Whole fold tables loc) {request : Request} {confirm : Option Nat}
    (hrequest : loc.request = some request) (hconfirm : request.confirmation = some confirm) :
    prodLocked fold tables (applyAll fold writes tables) loc.locked = [] ∨
      confirm = some (prodLocked fold tables (applyAll fold writes tables) loc.locked).length := by
  have hwell' : WellFormed fold (applyAll fold writes tables) := hwell.applyAll h.formed
  have hothers : ∀ nodeId, otherRows (fetchTags fold (applyAll fold writes tables) nodeId) =
      otherRows (fetchTags fold tables nodeId) := fun nodeId =>
    otherRows_changes (h.changes hrequest hconfirm)
  cases h with
  | @set nodeId key body rows hset _ hreads hlocked hcheck =>
    rw [hrequest] at hset
    cases hset
    cases hconfirm
    have hrows : fetchTags fold tables nodeId = rows := hwhole (nodeId, rows) (by simp [hreads])
    simp only [checkSet, Check.throw_bind, Check.ite_throw_eq_ok] at hcheck
    rw [hlocked]
    refine single_counted hrows ?_ hcheck.2.2
    rw [← hrows]
    exact prod_overlay hwell hwell'
      (centerValue_changes [.set key body.value] rfl "env") (hothers nodeId)
  | @delete nodeId key _ rows hdelete hreads hlocked hcheck =>
    rw [hrequest] at hdelete
    cases hdelete
    cases hconfirm
    have hrows : fetchTags fold tables nodeId = rows := hwhole (nodeId, rows) (by simp [hreads])
    simp only [checkDelete, Check.throw_bind, Check.ite_throw_eq_ok] at hcheck
    rw [hlocked]
    refine single_counted hrows ?_ hcheck.2
    rw [← hrows]
    exact prod_overlay hwell hwell'
      (centerValue_changes [.remove key] rfl "env") (hothers nodeId)
  | @bulk body ids remove plans hbulk _ hmade hfound hlocked hcheck =>
    rw [hrequest] at hbulk
    cases hbulk
    cases hconfirm
    have hcounted := bulk_counted hwell hwhole hwell' hothers hmade hfound
    rw [hlocked, prodLocked, List.filter_reverse, hcounted, List.length_map, List.length_reverse]
    rcases ensureProd_ok.mp hcheck with hnone | hsome
    · left
      simp [hnone]
    · exact .inr hsome
  | register hregister _ =>
    rw [hrequest] at hregister
    cases hregister
    cases hconfirm

/-- A transaction leaves alone the nodes that it did not lock. -/
theorem Commits.unlocked (h : Commits loc writes) (hwell : WellFormed fold tables)
    {request : Request} {confirm : Option Nat} (hrequest : loc.request = some request)
    (hconfirm : request.confirmation = some confirm) {nodeId : String}
    (hlocked : ∀ other ∈ loc.locked, fold other ≠ fold nodeId) :
    countsAsProd (fetchTags fold tables nodeId) =
      countsAsProd (fetchTags fold (applyAll fold writes tables) nodeId) := by
  have hcenter : ∀ write ∈ writes, ¬ write.touches fold nodeId := by
    intro write hwrite htouch
    obtain ⟨other, hmem, hnode⟩ := h.touches hwrite htouch
    exact hlocked other hmem hnode
  refine (countsAsProd_congr ((hwell.applyAll h.formed).centerValid nodeId)
    (hwell.centerValid nodeId) (centerValue_applyAll hcenter "env") ?_).symm
  exact otherRows_changes (h.changes hrequest hconfirm)

/-- The confirmation is right unless a production node was named twice. -/
theorem Commits.confirmed_iff (h : Commits loc writes) (hwell : WellFormed fold tables)
    (hwhole : Whole fold tables loc) {request : Request} {confirm : Option Nat}
    (hrequest : loc.request = some request) (hconfirm : request.confirmation = some confirm) :
    Confirmed fold tables (applyAll fold writes tables) loc.locked confirm ↔
      (prodLocked fold tables (applyAll fold writes tables) loc.locked).Nodup := by
  have hcounted := h.counted hwell hwhole hrequest hconfirm
  constructor
  · rintro ⟨hcount, -⟩
    rcases hcounted with hnone | hsome
    · rw [hnone]
      exact List.nodup_nil
    · rcases hcount with hempty | hcard
      · rw [List.toFinset_eq_empty_iff] at hempty
        rw [hempty]
        exact List.nodup_nil
      · rw [hsome] at hcard
        exact Multiset.coe_nodup.mp (Multiset.toFinset_card_eq_card_iff_nodup.mp
          (Option.some.inj hcard).symm)
  · intro hnodup
    constructor
    · rw [List.toFinset_card_of_nodup hnodup]
      exact hcounted.imp_left (List.toFinset_eq_empty_iff _).mpr
    · intro nodeId hne
      by_contra hmem
      refine hne (h.unlocked hwell hrequest hconfirm fun other hother hnode => hmem ?_)
      refine List.mem_map.mpr ⟨other, List.mem_filter.mpr ⟨hother, ?_⟩, hnode⟩
      rw [prodAround, fetchTags_congr hnode, fetchTags_congr hnode]
      cases hbefore : countsAsProd (fetchTags fold tables nodeId) with
      | true => rfl
      | false =>
        rw [hbefore] at hne
        simpa using hne.symm

/-! ## Reads that are not behind -/

/-- A read finds the rows of its node as they are committed. -/
def WholeReads (fold : String → String) (sys : System) (m : Move Nat Unit Event) : Prop :=
  ∀ t, m = .act t () → ∀ nodeId, sys.about t (.fetchTags nodeId) →
    fetchTags fold (sys.shared.view t) nodeId = fetchTags fold sys.shared.tables nodeId

/-- A transaction writes for nodes that it locked. -/
theorem Commits.owned (h : Commits loc writes) {write : Write} (hwrite : write ∈ writes) :
    ∃ other ∈ loc.locked, other = write.nodeId := by
  cases h with
  | set _ _ _ hlocked _ =>
    rw [List.mem_singleton.mp hwrite, hlocked]
    exact ⟨_, List.mem_cons_self, rfl⟩
  | delete _ _ hlocked _ =>
    rw [List.mem_singleton.mp hwrite, hlocked]
    exact ⟨_, List.mem_cons_self, rfl⟩
  | bulk _ _ hmade _ _ _ =>
    obtain ⟨plan, hplan, hwrite⟩ := List.mem_flatMap.mp hwrite
    obtain ⟨change, hchange, rfl⟩ := NodePlan.mem_writes.mp hwrite
    obtain ⟨rows, hread, -⟩ := hmade plan hplan (NodePlan.found_of_mem hchange)
    refine ⟨plan.nodeId, hread.locked, ?_⟩
    cases change <;> rfl
  | @register registration _ hlocked =>
    refine ⟨registration.nodeId, hlocked, ?_⟩
    simp only [Registration.writes, List.mem_cons, List.mem_map] at hwrite
    rcases hwrite with rfl | rfl | ⟨tag, -, rfl⟩ <;> rfl

theorem Whole.keep {tables' : Tables} (h : Whole fold tables loc)
    (hsame : ∀ read ∈ loc.reads,
      fetchTags fold tables' read.1 = fetchTags fold tables read.1) : Whole fold tables' loc :=
  fun read hread => (hsame read hread).trans (h read hread)

theorem Whole.fresh (request : Option Request) : Whole fold tables (.fresh request) :=
  fun read hread => by cases hread

/-- Writes for nodes that a thread did not read leave its reads as they are. -/
theorem Whole.commit {center : Center} (h : Whole fold center.tables loc)
    (hapart : ∀ write ∈ writes, ∀ read ∈ loc.reads, fold write.nodeId ≠ fold read.1) :
    Whole fold (center.commit fold writes).tables loc := by
  refine h.keep fun read hread => ?_
  rcases center.commit_tables writes with heq | ⟨-, heq⟩
  · rw [heq]
  · rw [heq]
    exact fetchTags_applyAll fun write hwrite => hapart write hwrite read hread

theorem Whole.note {t : Nat} {op : Op} {reply : op.Reply} {center center' : Center}
    (h : Whole fold center.tables loc) (hexec : exec fold t op center = some (reply, center'))
    (hread : ∀ nodeId, op = .fetchTags nodeId →
      fetchTags fold (center.view t) nodeId = fetchTags fold center.tables nodeId) :
    Whole fold center'.tables (note op reply loc) := by
  cases op with
  | lockNode nodeId =>
    simp only [exec] at hexec
    split at hexec
    · split at hexec <;> cases hexec
      · exact h
      · exact h
    · cases hexec
  | lockUpsert nodeId =>
    simp only [exec] at hexec
    split at hexec
    · cases hexec
      exact h
    · cases hexec
  | fetchTags nodeId =>
    cases hexec
    intro read hmem
    rcases List.mem_append.mp hmem with hmem | hmem
    · exact h read hmem
    · rw [List.mem_singleton.mp hmem]
      exact (hread nodeId rfl).symm
  | commit writes => exact Whole.fresh none
  | rollback => exact Whole.fresh none

variable {ok : System → Move Nat Unit Event → Prop} {sys : System}

theorem whole_of_reaches (h : (center fold).Reaches (WholeReads fold) initial sys) (t : Nat) :
    Whole fold sys.shared.tables (sys.loc t) := by
  refine h.invariant (P := fun shared locs => ∀ t, Whole fold shared.tables (locs t))
    (center_obeys fold) (initial_sound fold) (fun t => Whole.fresh none) ?_ ?_ t
  · intro sys t' op c reply shared hreach hwhole hok habout hpre _ hexec t
    by_cases hne : t = t'
    · subst hne
      rw [Function.update_self]
      refine (hwhole t).note hexec fun nodeId heq => ?_
      subst heq
      exact hok t rfl nodeId habout
    · rw [Function.update_of_ne hne]
      rcases exec_tables hexec with heq | ⟨writes, rfl, heq⟩
      · rw [heq]
        exact hwhole t
      · rw [heq]
        have hlocks : ∀ t, Inv fold False sys.shared t (sys.loc t) :=
          inv_of_reaches (fun _ _ _ hfalse => hfalse.elim) hreach
        refine (hwhole t).commit fun write hwrite read hread hsame => ?_
        -- Both threads would hold the lock of the node.
        obtain ⟨other, hother, rfl⟩ := Commits.owned hpre hwrite
        have hheld := (hlocks t').locked _ hother
        rw [hsame, (hlocks t).locked _ ((hlocks t).reads read hread).1] at hheld
        exact hne (Option.some.inj hheld)
  · intro sys e sys' hreach hwhole _ hfire t
    cases e with
    | start t' request =>
      simp only [Tags.center, fire] at hfire
      split at hfire
      · cases hfire
        rw [Machine.loc_update]
        by_cases hne : t = t'
        · subst hne
          rw [Function.update_self]
          exact Whole.fresh (some request)
        · rw [Function.update_of_ne hne]
          exact hwhole t
      · cases hfire
    | abort t' =>
      cases hfire
      rw [Machine.loc_update]
      by_cases hne : t = t'
      · subst hne
        rw [Function.update_self]
        exact Whole.fresh none
      · rw [Function.update_of_ne hne]
        exact hwhole t
    | backfill index =>
      simp only [Tags.center, fire, Option.map_eq_some_iff] at hfire
      obtain ⟨node, hnode, rfl⟩ := hfire
      have hfree := (Option.filter_eq_some_iff.mp hnode).2
      have hlocks : Inv fold False sys.shared t (sys.loc t) :=
        inv_of_reaches (fun _ _ _ hfalse => hfalse.elim) hreach t
      refine (hwhole t).commit fun write hwrite read hread hsame => ?_
      obtain ⟨tag, -, rfl⟩ := backfill_inserts hwrite
      have hheld := hlocks.locked _ (hlocks.reads read hread).1
      rw [← hsame] at hheld
      rw [show fold (Write.insertTag node.nodeId tag).nodeId = fold node.nodeId from rfl] at hheld
      rw [hheld] at hfree
      cases hfree

/-! ## Every run -/

section
variable (fold : String → String) (sys : System)

/-- Every change that is about to commit has the right confirmation. -/
def AllConfirmed : Prop :=
  ∀ t writes request confirm, sys.about t (.commit writes) → (sys.loc t).request = some request →
    request.confirmation = some confirm →
      Confirmed fold sys.shared.tables (applyAll fold writes sys.shared.tables) (sys.loc t).locked
        confirm

/-- No change that is about to commit has two spellings of one production node. -/
def NamedOnce : Prop :=
  ∀ t writes request confirm, sys.about t (.commit writes) → (sys.loc t).request = some request →
    request.confirmation = some confirm →
      (prodLocked fold sys.shared.tables (applyAll fold writes sys.shared.tables)
        (sys.loc t).locked).Nodup

end

/-- In every run whose reads are not behind, changes are confirmed when no production node is
named twice, and only then. -/
theorem prod_changes_confirmed_iff (h : (center fold).Reaches (WholeReads fold) initial sys) :
    AllConfirmed fold sys ↔ NamedOnce fold sys := by
  have hcommit : ∀ t writes request confirm, sys.about t (.commit writes) →
      (sys.loc t).request = some request → request.confirmation = some confirm →
        (Confirmed fold sys.shared.tables (applyAll fold writes sys.shared.tables)
            (sys.loc t).locked confirm ↔
          (prodLocked fold sys.shared.tables (applyAll fold writes sys.shared.tables)
            (sys.loc t).locked).Nodup) := fun t writes request confirm habout hrequest hconfirm =>
    (commits_of_about h habout).confirmed_iff (wellFormed_of_reaches h) (whole_of_reaches h t)
      hrequest hconfirm
  constructor
  · intro hall t writes request confirm habout hrequest hconfirm
    exact (hcommit t writes request confirm habout hrequest hconfirm).mp
      (hall t writes request confirm habout hrequest hconfirm)
  · intro honce t writes request confirm habout hrequest hconfirm
    exact (hcommit t writes request confirm habout hrequest hconfirm).mpr
      (honce t writes request confirm habout hrequest hconfirm)

end

/-! ## Two runs -/

theorem wholeReads_of_current {fold : String → String} (sys : System) (m : Move Nat Unit Event)
    (h : current sys m = true) : WholeReads fold sys m := by
  rintro t rfl nodeId -
  have htags : (sys.shared.view t).tags = sys.shared.tables.tags := of_decide_eq_true h
  simp only [fetchTags, htags]

/-- The thread is about to commit. -/
def committing (sys : System) (t : Nat) : Option (List Write) :=
  match (sys.threads t).prog with
  | .perform (.commit writes) _ => some writes
  | _ => none

theorem about_of_committing {sys : System} {t : Nat} {writes : List Write}
    (h : committing sys t = some writes) : sys.about t (.commit writes) := by
  rw [committing] at h
  split at h
  · next next hprog =>
    cases h
    exact ⟨next, hprog⟩
  · cases h

def envOf (nodeId value : String) (confirm : Option Nat) : Request :=
  .setCenterTag nodeId "env" ⟨value, none, confirm⟩

/-- A node becomes production, confirmed. -/
def confirmedMoves : List (Move Nat Unit Event) :=
  .event (.start 0 (.register (bareNode "node-1"))) :: act 0 3 ++
    .event (.start 0 (envOf "node-1" "prod" (some 1))) :: act 0 2

theorem prod_changes_confirmed_iff_set : ∃ sys : System,
    (committing sys 0).isSome = true ∧ (AllConfirmed id sys ↔ NamedOnce id sys) := by
  have hrun : ((center id).run current initial confirmedMoves).any (fun sys =>
      (committing sys 0).isSome) = true := by
    decide +kernel
  obtain ⟨sys, hreach, hcommitting⟩ := Machine.exists_reaches_of_run wholeReads_of_current hrun
  exact ⟨sys, hcommitting, prod_changes_confirmed_iff hreach⟩

def toDev (nodeIds : List String) : Request :=
  .bulk ⟨nodeIds, .ofList [("env", "dev")], [], false, none⟩

/-- Once a bulk change has read its first node, the second one becomes production. -/
def unconfirmedMoves : List (Move Nat Unit Event) :=
  .event (.start 0 (.register (bareNode "node-1"))) :: act 0 3 ++
    .event (.start 0 (.register (bareNode "node-2"))) :: act 0 3 ++
    .event (.start 0 (toDev ["node-1", "node-2"])) :: act 0 2 ++
    .event (.start 1 (envOf "node-2" "prod" (some 1))) :: act 1 3 ++ act 0 2

/-- The bulk change takes the second node out of production without a confirmation. -/
theorem prod_unconfirmed : ∃ sys : System,
    (center id).Reaches (fun _ _ => True) initial sys ∧ ¬ AllConfirmed id sys := by
  have hrun : ((center id).run (fun _ _ => true) initial unconfirmedMoves).any (fun sys =>
      (sys.loc 0).request.bind Request.confirmation = some none ∧
        ((committing sys 0).any fun writes =>
          countsAsProd (fetchTags id sys.shared.tables "node-2") &&
            !countsAsProd (fetchTags id (applyAll id writes sys.shared.tables) "node-2")) =
          true) = true := by
    decide +kernel
  obtain ⟨sys, hreach, hcheck⟩ := Machine.exists_reaches_of_run (fun _ _ _ => trivial) hrun
  obtain ⟨hrequest, hwrites⟩ := of_decide_eq_true hcheck
  obtain ⟨request, hrequest, hconfirm⟩ := Option.bind_eq_some_iff.mp hrequest
  obtain ⟨writes, hcommitting, hprod⟩ := (Option.any_eq_true _ _).mp hwrites
  rw [Bool.and_eq_true, Bool.not_eq_true'] at hprod
  refine ⟨sys, hreach, fun hall => ?_⟩
  obtain ⟨hcount, hchanged⟩ :=
    hall 0 writes request none (about_of_committing hcommitting) hrequest hconfirm
  have hmem := hchanged "node-2" (by rw [hprod.1, hprod.2]; exact Bool.noConfusion)
  rcases hcount with hempty | hnone
  · rw [List.toFinset_eq_empty_iff] at hempty
    rw [hempty] at hmem
    cases hmem
  · cases hnone

end Novbot.Tags
