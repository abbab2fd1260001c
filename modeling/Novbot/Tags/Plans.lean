import Mathlib.Data.Finset.Card
import Novbot.Lib.Check
import Novbot.Tags.Rows

/-!
# Changes to the center's tags

What a request may write for a node, from the rows that were read for it.  A single change
sets or removes one key.  A bulk change has a plan for each of its nodes (`plan_node`),
whose items say what happens to each key.  A node has at most `maxCenterTags` tags of the
center, and `planNode_limit` says that the plan of a node keeps to that when it is carried
out on the rows it was made from.
-/

namespace Novbot.Tags

open Text

/-! ## The center's rows -/

def centerValue (rows : List StoredTag) (key : String) : Option String :=
  (rows.find? fun row => row.source == .center && row.key == key).map (·.value)

def centerCount (rows : List StoredTag) : Nat := (rows.filter (·.source == .center)).length

def centerKeys (rows : List StoredTag) : Finset String :=
  ((rows.filter (·.source == .center)).map (·.key)).toFinset

/-- What a request does to one key. -/
inductive Change where
  | set (key value : String)
  | remove (key : String)
  deriving DecidableEq, Repr

def overlayOne (rows : List StoredTag) (entry : String × Option String) : List StoredTag :=
  (rows.filter fun row => !(row.source == .center && row.key == entry.1)) ++
    (entry.2.map (centerTag entry.1)).toList

def applyOverlay (rows : List StoredTag) (overlay : SortedMap String (Option String)) :
    List StoredTag :=
  overlay.entries.foldl overlayOne rows

/-! ## Confirmation of production nodes -/

inductive TagError where
  | nodeUnknown
  | keyInvalid
  | valueInvalid
  | keyReserved
  | limitExceeded
  | tagNotFound
  | tagNotCenter
  | tagConflict
  | prod (nodeIds : List String)
  | tooManyTargets
  | badRequest (message : String)
  deriving DecidableEq, Repr

def centerErr : CenterTagError → TagError
  | .keyInvalid => .keyInvalid
  | .valueInvalid => .valueInvalid
  | .keyReserved => .keyReserved

def ensureProd (ids : List String) (confirm : Option Nat) : Except TagError Unit :=
  if ids ≠ [] ∧ confirm ≠ some ids.length then throw (.prod ids) else pure ()

def ensureSingleProd (nodeId : String) (rows : List StoredTag)
    (overlay : SortedMap String (Option String)) (confirm : Option Nat) : Except TagError Unit :=
  if countsAsProd rows || countsAsProd (applyOverlay rows overlay) then
    ensureProd [nodeId] confirm
  else pure ()

/-! ## One change -/

structure PutTagBody where
  value : String
  ifValue : Option String
  /-- The node count of `confirm_prod`. -/
  confirmProd : Option Nat
  deriving DecidableEq, Repr

/-- What `set_center_tag` checks once it read the rows. -/
def checkSet (nodeId key : String) (body : PutTagBody) (rows : List StoredTag) :
    Except TagError Unit := do
  let current := centerValue rows key
  if body.ifValue.any fun expected => current ≠ some expected then throw .tagConflict
  if current.isNone && maxCenterTags ≤ centerCount rows then throw .limitExceeded
  ensureSingleProd nodeId rows (SortedMap.empty.insert key (some body.value)) body.confirmProd

/-- What `delete_center_tag` checks once it read the rows. -/
def checkDelete (nodeId key : String) (confirmProd : Option Nat) (rows : List StoredTag) :
    Except TagError Unit := do
  if (centerValue rows key).isNone then
    throw (if rows.any (·.key == key) then .tagNotCenter else .tagNotFound)
  ensureSingleProd nodeId rows (SortedMap.empty.insert key none) confirmProd

theorem checkSet_ok {nodeId key : String} {body : PutTagBody} {rows : List StoredTag}
    (h : checkSet nodeId key body rows = .ok ()) :
    (∀ expected, body.ifValue = some expected → centerValue rows key = some expected) ∧
      (centerValue rows key = none → centerCount rows < maxCenterTags) := by
  simp only [checkSet, Check.throw_bind, Check.ite_throw_eq_ok] at h
  obtain ⟨hconflict, hlimit, -⟩ := h
  constructor
  · intro expected hexpected
    by_contra hne
    exact hconflict (by simp [hexpected, hne])
  · intro hnone
    by_contra hle
    exact hlimit (by simp [hnone, Nat.not_lt.mp hle])

/-! ## Plans -/

inductive PlanAction where
  | added
  | changed
  | unchanged
  | removed
  | notChangedBootReported
  | notFound
  | error
  deriving DecidableEq, Repr

structure PlanItem where
  key : String
  action : PlanAction
  oldValue : Option String
  newValue : Option String
  error : Option String
  effectiveBefore : Option String
  effectiveAfter : Option String
  nodeValue : Option String
  write : Option String
  deriving DecidableEq, Repr

structure NodePlan where
  nodeId : String
  found : Bool
  prod : Bool
  items : List PlanItem
  deriving DecidableEq, Repr

/-- The state of `plan_node`. -/
structure Planning where
  centerKeys : Finset String
  items : List PlanItem
  overlay : SortedMap String (Option String)

section
variable (rows : List StoredTag)

/-- The effective value of a key before the change. -/
def valueBefore (key : String) : Option String :=
  ((effectiveOf rows).lookup key).map (·.value)

def planRemove (planning : Planning) (key : String) : Planning :=
  match centerValue rows key with
  | some old =>
    { centerKeys := planning.centerKeys.erase key
      overlay := planning.overlay.insert key none
      items := planning.items ++
        [⟨key, .removed, some old, none, none, none, none, validNodeValue rows key, none⟩] }
  | none =>
    match rows.find? fun row => row.key == key && row.source == .node with
    | some row =>
      { planning with items := planning.items ++
          [⟨key, .notChangedBootReported, some row.value, none, none, valueBefore rows key,
            valueBefore rows key, validNodeValue rows key, none⟩] }
    | none =>
      { planning with items := planning.items ++
          [⟨key, .notFound, none, none, none, none, none, none, none⟩] }

def planAdd (planning : Planning) (entry : String × String) : Planning :=
  let (key, value) := entry
  match centerValue rows key with
  | some old =>
    if old = value then
      { planning with items := planning.items ++
          [⟨key, .unchanged, some old, some value, none, valueBefore rows key,
            valueBefore rows key, validNodeValue rows key, none⟩] }
    else
      { planning with
        overlay := planning.overlay.insert key (some value)
        items := planning.items ++
          [⟨key, .changed, some old, some value, none, none, none, validNodeValue rows key,
            some value⟩] }
  | none =>
    if maxCenterTags ≤ planning.centerKeys.card then
      { planning with items := planning.items ++
          [⟨key, .error, none, some value, some "tag_limit_exceeded", valueBefore rows key,
            valueBefore rows key, validNodeValue rows key, none⟩] }
    else
      { centerKeys := insert key planning.centerKeys
        overlay := planning.overlay.insert key (some value)
        items := planning.items ++
          [⟨key, .added, none, some value, none, none, none, validNodeValue rows key,
            some value⟩] }

def planning (add : SortedMap String String) (remove : List String) : Planning :=
  add.entries.foldl (planAdd rows) (remove.foldl (planRemove rows) ⟨centerKeys rows, [], .empty⟩)

/-- The effective values of what the plan writes. -/
def fillEffective (after : SortedMap String Effective) (item : PlanItem) : PlanItem :=
  if item.action = .added ∨ item.action = .changed ∨ item.action = .removed then
    { item with
      effectiveBefore := valueBefore rows item.key
      effectiveAfter := (after.lookup item.key).map (·.value) }
  else item

def planNode (nodeId : String) (found : Bool) (add : SortedMap String String)
    (remove : List String) : NodePlan :=
  if !found then
    ⟨nodeId, false, false, [⟨"", .notFound, none, none, none, none, none, none, none⟩]⟩
  else
    let planned := planning rows add remove
    let changed := applyOverlay rows planned.overlay
    { nodeId
      found := true
      prod := countsAsProd rows || countsAsProd changed
      items := planned.items.map (fillEffective rows (effectiveOf changed)) }

end

/-- What `apply_plan` does for an item. -/
def PlanItem.changes (item : PlanItem) : List Change :=
  match item.action with
  | .added | .changed => (item.write.map (Change.set item.key)).toList
  | .removed => [.remove item.key]
  | _ => []

def NodePlan.changes (plan : NodePlan) : List Change :=
  if plan.found then plan.items.flatMap (·.changes) else []

def prodIdsOf (plans : List NodePlan) : List String := (plans.filter (·.prod)).map (·.nodeId)

/-! ## Bulk requests -/

structure BulkBody where
  nodeIds : List String
  add : SortedMap String String
  remove : List String
  dryRun : Bool
  confirmProd : Option Nat
  deriving DecidableEq

def maxTargets : Nat := 5000

/-- Trimmed, without blanks, sorted, and each once. -/
def normalized (names : List String) : List String :=
  let trimmed := names.map fun name => String.ofList (trim name.toList)
  (SortedMap.ofList ((trimmed.filter (· ≠ "")).map fun name => (name, ()))).keys

def normalizeIds (ids : List String) : Except TagError (List String) :=
  if normalized ids = [] then throw (.badRequest "node_ids is required")
  else if maxTargets < (normalized ids).length then throw .tooManyTargets
  else pure (normalized ids)

def inBoth (key : String) : String := "key `" ++ key ++ "` is in both add and remove"

def validateBulkKeys (add : SortedMap String String) (remove : List String) :
    Except TagError Unit := do
  if add.entries = [] ∧ remove = [] then throw (.badRequest "add or remove is required")
  add.entries.forM fun entry => (validateCenterTag entry.1 entry.2).mapError centerErr
  remove.forM fun key => do
    (validateCenterTag key "x").mapError centerErr
    if add.contains key then throw (.badRequest (inBoth key))

/-- The nodes of a bulk request and the keys that it removes. -/
def BulkBody.targets (body : BulkBody) : Except TagError (List String × List String) := do
  let remove := normalized body.remove
  validateBulkKeys body.add remove
  let ids ← normalizeIds body.nodeIds
  return (ids, remove)

/-- What a bulk request that is carried out asks for. -/
theorem targets_ok {body : BulkBody} {ids remove : List String}
    (h : body.targets = .ok (ids, remove)) :
    (∀ entry ∈ body.add.entries, validateCenterTag entry.1 entry.2 = .ok ()) ∧
      ∀ key ∈ remove, body.add.contains key = false := by
  simp only [BulkBody.targets, validateBulkKeys, Check.throw_bind, Check.bind_eq_ok,
    Check.ite_throw_eq_ok, Check.pure_eq_ok, Prod.mk.injEq] at h
  obtain ⟨⟨⟩, ⟨-, ⟨⟩, hadd, hremove⟩, ids, -, -, rfl⟩ := h
  constructor
  · intro entry hentry
    exact Check.mapError_eq_ok.mp (Check.forM_eq_ok.mp hadd entry hentry)
  · intro key hkey
    have hboth := Check.forM_eq_ok.mp hremove key hkey
    simp only [Check.bind_eq_ok] at hboth
    obtain ⟨-, -, hboth⟩ := hboth
    cases hcontains : body.add.contains key with
    | false => rfl
    | true =>
      rw [hcontains, if_pos rfl] at hboth
      cases hboth

/-! ## The center's keys after a change -/

section
variable {rows : List StoredTag}

theorem mem_centerKeys {key : String} :
    key ∈ centerKeys rows ↔ (centerValue rows key).isSome = true := by
  simp only [centerKeys, List.mem_toFinset, List.mem_map, List.mem_filter, beq_iff_eq, centerValue,
    Option.isSome_map, List.find?_isSome, Bool.and_eq_true]
  constructor
  · rintro ⟨row, ⟨hmem, hsource⟩, hkey⟩
    exact ⟨row, hmem, hsource, hkey⟩
  · rintro ⟨row, hmem, hsource, hkey⟩
    exact ⟨row, ⟨hmem, hsource⟩, hkey⟩

theorem centerCount_eq (h : Distinct rows) : centerCount rows = (centerKeys rows).card := by
  have hnodup : ((rows.filter (·.source == .center)).map (·.key)).Nodup := by
    refine List.pairwise_map.mpr ((h.filter _).imp_of_mem fun {a b} ha hb hne heq => ?_)
    have hsource := (List.mem_filter.mp ha).2
    have hsource' := (List.mem_filter.mp hb).2
    rw [beq_iff_eq] at hsource hsource'
    exact hne ⟨heq, hsource.trans hsource'.symm⟩
  rw [centerKeys, List.toFinset_card_of_nodup hnodup, List.length_map, centerCount]

theorem card_centerKeys_le (rows : List StoredTag) : (centerKeys rows).card ≤ centerCount rows := by
  rw [centerKeys, centerCount, ← List.length_map (f := StoredTag.key)]
  exact List.toFinset_card_le _

theorem centerKeys_congr {rows' : List StoredTag}
    (h : ∀ key, centerValue rows key = centerValue rows' key) :
    centerKeys rows = centerKeys rows' := by
  ext key
  rw [mem_centerKeys, mem_centerKeys, h]

/-- The key is there once the changes are made. -/
def After (changes : List Change) (keys : Finset String) (key : String) : Prop :=
  (∃ value, .set key value ∈ changes) ∨ (key ∈ keys ∧ .remove key ∉ changes)

/-- No key is both set and removed. -/
def Consistent (changes : List Change) : Prop :=
  ∀ key value, .set key value ∈ changes → .remove key ∉ changes

/-- The changes of a plan so far, and the keys that they leave. -/
structure Planned (rows : List StoredTag) (planning : Planning) : Prop where
  mem : ∀ key, key ∈ planning.centerKeys ↔
    After (planning.items.flatMap (·.changes)) (centerKeys rows) key
  limit : (centerKeys rows).card ≤ maxCenterTags → planning.centerKeys.card ≤ maxCenterTags

theorem Planned.add {planning : Planning} (h : Planned rows planning) {entry : String × String}
    (hkept : .remove entry.1 ∉ planning.items.flatMap (·.changes)) :
    Planned rows (planAdd rows planning entry) := by
  obtain ⟨key, value⟩ := entry
  cases hold : centerValue rows key with
  | some old =>
    have hmem : key ∈ centerKeys rows := mem_centerKeys.mpr (by rw [hold]; rfl)
    by_cases hsame : old = value
    · have hstep : planAdd rows planning (key, value) = { planning with
          items := planning.items ++ [⟨key, .unchanged, some old, some value, none,
            valueBefore rows key, valueBefore rows key, validNodeValue rows key, none⟩] } := by
        simp [planAdd, hold, hsame]
      rw [hstep]
      exact ⟨fun k => by simpa [PlanItem.changes] using h.mem k, h.limit⟩
    · have hstep : (planAdd rows planning (key, value)).centerKeys = planning.centerKeys ∧
          (planAdd rows planning (key, value)).items.flatMap (·.changes) =
            planning.items.flatMap (·.changes) ++ [.set key value] := by
        simp [planAdd, hold, hsame, PlanItem.changes]
      refine ⟨fun k => ?_, fun hle => hstep.1 ▸ h.limit hle⟩
      rw [hstep.1, hstep.2, h.mem k]
      -- The key is one of the rows, and it is not removed.
      by_cases hk : k = key
      · subst hk
        exact ⟨fun _ => .inl ⟨value, by simp⟩, fun _ => .inr ⟨hmem, hkept⟩⟩
      · simp [After, hk]
  | none =>
    by_cases hfull : maxCenterTags ≤ planning.centerKeys.card
    · have hstep : planAdd rows planning (key, value) = { planning with
          items := planning.items ++ [⟨key, .error, none, some value, some "tag_limit_exceeded",
            valueBefore rows key, valueBefore rows key, validNodeValue rows key, none⟩] } := by
        simp [planAdd, hold, hfull]
      rw [hstep]
      exact ⟨fun k => by simpa [PlanItem.changes] using h.mem k, h.limit⟩
    · have hstep : (planAdd rows planning (key, value)).centerKeys =
            insert key planning.centerKeys ∧
          (planAdd rows planning (key, value)).items.flatMap (·.changes) =
            planning.items.flatMap (·.changes) ++ [.set key value] := by
        simp [planAdd, hold, hfull, PlanItem.changes]
      constructor
      · intro k
        rw [hstep.1, hstep.2, Finset.mem_insert, h.mem k]
        by_cases hk : k = key
        · subst hk
          exact ⟨fun _ => .inl ⟨value, by simp⟩, fun _ => .inl rfl⟩
        · simp [After, hk]
      · intro _
        rw [hstep.1]
        exact (Finset.card_insert_le _ _).trans (Nat.lt_of_not_le hfull)

theorem Planned.remove {planning : Planning} (h : Planned rows planning) {key : String}
    (hunset : ∀ value, .set key value ∉ planning.items.flatMap (·.changes)) :
    Planned rows (planRemove rows planning key) := by
  cases hold : centerValue rows key with
  | some old =>
    have hstep : (planRemove rows planning key).centerKeys = planning.centerKeys.erase key ∧
        (planRemove rows planning key).items.flatMap (·.changes) =
          planning.items.flatMap (·.changes) ++ [.remove key] := by
      simp [planRemove, hold, PlanItem.changes]
    constructor
    · intro k
      rw [hstep.1, hstep.2, Finset.mem_erase, h.mem k]
      by_cases hk : k = key
      · subst hk
        simp [After, hunset]
      · simp [After, hk]
    · intro hle
      rw [hstep.1]
      exact (Finset.card_erase_le).trans (h.limit hle)
  | none =>
    have hstep : (planRemove rows planning key).centerKeys = planning.centerKeys ∧
        (planRemove rows planning key).items.flatMap (·.changes) =
          planning.items.flatMap (·.changes) := by
      rw [planRemove, hold]
      dsimp only
      split <;> simp [PlanItem.changes]
    refine ⟨fun k => ?_, fun hle => hstep.1 ▸ h.limit hle⟩
    rw [hstep.1, hstep.2, h.mem k]

theorem planRemove_changes {planning : Planning} {key : String} {change : Change}
    (h : change ∈ (planRemove rows planning key).items.flatMap (·.changes)) :
    change ∈ planning.items.flatMap (·.changes) ∨ change = .remove key := by
  rw [planRemove] at h
  split at h
  · simpa [PlanItem.changes] using h
  · split at h
    · exact .inl (by simpa [PlanItem.changes] using h)
    · exact .inl (by simpa [PlanItem.changes] using h)

theorem planAdd_changes {planning : Planning} {entry : String × String} {change : Change}
    (h : change ∈ (planAdd rows planning entry).items.flatMap (·.changes)) :
    change ∈ planning.items.flatMap (·.changes) ∨ change = .set entry.1 entry.2 := by
  obtain ⟨key, value⟩ := entry
  rw [planAdd] at h
  split at h
  · split at h
    · exact .inl (by simpa [PlanItem.changes] using h)
    · simpa [PlanItem.changes] using h
  · split at h
    · exact .inl (by simpa [PlanItem.changes] using h)
    · simpa [PlanItem.changes] using h

theorem removals_planned {remove : List String} {planning : Planning}
    (h : Planned rows planning)
    (hunset : ∀ key value, .set key value ∉ planning.items.flatMap (·.changes)) :
    Planned rows (remove.foldl (planRemove rows) planning) ∧
      ∀ change ∈ (remove.foldl (planRemove rows) planning).items.flatMap (·.changes),
        change ∈ planning.items.flatMap (·.changes) ∨ ∃ key ∈ remove, change = .remove key := by
  induction remove generalizing planning with
  | nil => exact ⟨h, fun change hchange => .inl hchange⟩
  | cons key remove ih =>
    have hunset' : ∀ key' value, .set key' value ∉
        (planRemove rows planning key).items.flatMap (·.changes) := by
      intro key' value hmem
      rcases planRemove_changes hmem with hmem | heq
      · exact hunset key' value hmem
      · cases heq
    obtain ⟨hplanned, hchanges⟩ := ih (h.remove (hunset key)) hunset'
    refine ⟨hplanned, fun change hchange => ?_⟩
    rcases hchanges change hchange with hchange | ⟨later, hlater, heq⟩
    · rcases planRemove_changes hchange with hchange | heq
      · exact .inl hchange
      · exact .inr ⟨key, List.mem_cons_self, heq⟩
    · exact .inr ⟨later, .tail _ hlater, heq⟩

theorem additions_planned {add : List (String × String)} {planning : Planning}
    (h : Planned rows planning)
    (hkept : ∀ entry ∈ add, .remove entry.1 ∉ planning.items.flatMap (·.changes)) :
    Planned rows (add.foldl (planAdd rows) planning) ∧
      ∀ change ∈ (add.foldl (planAdd rows) planning).items.flatMap (·.changes),
        change ∈ planning.items.flatMap (·.changes) ∨
          ∃ entry ∈ add, change = .set entry.1 entry.2 := by
  induction add generalizing planning with
  | nil => exact ⟨h, fun change hchange => .inl hchange⟩
  | cons entry add ih =>
    have hkept' : ∀ later ∈ add, .remove later.1 ∉
        (planAdd rows planning entry).items.flatMap (·.changes) := by
      intro later hlater hmem
      rcases planAdd_changes hmem with hmem | heq
      · exact hkept later (.tail _ hlater) hmem
      · cases heq
    obtain ⟨hplanned, hchanges⟩ := ih (h.add (hkept entry List.mem_cons_self)) hkept'
    refine ⟨hplanned, fun change hchange => ?_⟩
    rcases hchanges change hchange with hchange | ⟨later, hlater, heq⟩
    · rcases planAdd_changes hchange with hchange | heq
      · exact .inl hchange
      · exact .inr ⟨entry, List.mem_cons_self, heq⟩
    · exact .inr ⟨later, .tail _ hlater, heq⟩

section
variable {add : SortedMap String String} {remove : List String}
  (hdisjoint : ∀ key ∈ remove, add.contains key = false)
include hdisjoint

theorem planning_planned :
    Planned rows (planning rows add remove) ∧
      ∀ change ∈ (planning rows add remove).items.flatMap (·.changes),
        (∃ key ∈ remove, change = .remove key) ∨
          ∃ entry ∈ add.entries, change = .set entry.1 entry.2 := by
  have hstart : Planned rows ⟨centerKeys rows, [], .empty⟩ := ⟨fun key => by simp [After], id⟩
  have hremovals : Planned rows (remove.foldl (planRemove rows) ⟨centerKeys rows, [], .empty⟩) ∧ _ :=
    removals_planned hstart fun key value => List.not_mem_nil
  obtain ⟨hplanned, hremoved⟩ := hremovals
  have hkept : ∀ entry ∈ add.entries, .remove entry.1 ∉
      (remove.foldl (planRemove rows) ⟨centerKeys rows, [], .empty⟩).items.flatMap
        (·.changes) := by
    intro entry hentry hmem
    rcases hremoved _ hmem with hnone | ⟨key, hkey, heq⟩
    · cases hnone
    · cases heq
      have hcontains : add.contains entry.1 = true :=
        SortedMap.mem_keys.mp (List.mem_map_of_mem hentry)
      rw [hdisjoint _ hkey] at hcontains
      cases hcontains
  obtain ⟨hplanned, hadded⟩ := additions_planned hplanned hkept
  refine ⟨hplanned, fun change hchange => ?_⟩
  rcases hadded change hchange with hchange | hentry
  · rcases hremoved change hchange with hnone | hkey
    · cases hnone
    · exact .inl hkey
  · exact .inr hentry

omit hdisjoint in
theorem planNode_changes (nodeId : String) :
    (planNode rows nodeId true add remove).changes =
      (planning rows add remove).items.flatMap (·.changes) := by
  have hfill : ∀ (after : SortedMap String Effective) (item : PlanItem),
      (fillEffective rows after item).changes = item.changes := by
    intro after item
    rw [fillEffective]
    split <;> rfl
  simp [planNode, NodePlan.changes, List.flatMap_map, hfill]

/-- The changes of a plan are the request's. -/
theorem planNode_requested {nodeId : String} {change : Change}
    (h : change ∈ (planNode rows nodeId true add remove).changes) :
    (∃ key ∈ remove, change = .remove key) ∨
      ∃ entry ∈ add.entries, change = .set entry.1 entry.2 := by
  rw [planNode_changes] at h
  exact (planning_planned hdisjoint).2 change h

/-- A plan that is carried out on the rows it was made from keeps to the limit. -/
theorem planNode_limit (nodeId : String) (hle : (centerKeys rows).card ≤ maxCenterTags) :
    ∃ keys : Finset String, keys.card ≤ maxCenterTags ∧
      ∀ key, key ∈ keys ↔
        After (planNode rows nodeId true add remove).changes (centerKeys rows) key := by
  have hplanned : Planned rows (planning rows add remove) := (planning_planned hdisjoint).1
  rw [planNode_changes]
  exact ⟨_, hplanned.limit hle, hplanned.mem⟩

end

end

end Novbot.Tags
