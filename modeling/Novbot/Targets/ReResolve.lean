import Novbot.Schedules.Alone
import Novbot.Targets.Rematch
import Novbot.Targets.Submit

/-!
# Re-resolving a schedule

`re_resolve_schedule` of `novbot-center/src/targets.rs` matches the stored target of a schedule
anew.  A dry run projects the states of the nodes; a real run writes them and reports what it
wrote.

*Stored targets.*  The target that a real run stores matches the nodes that it wrote
(`rematch_stored`), so nothing drifts (`reResolve_settles`).

*Previews.*  The projection has the node rows but not the configs, and no node that leaves
(`projection_iff`).

*The two together.*  `reResolve_iff` says when a real run leaves no drift and does what its dry
run reports.
-/

namespace Novbot.Targets

open Text
open Tags (InventoryNode SelectorParse parseSelector maxSelectorChars)
open Schedules (Tables Schedule NodeState Config entriesOf hasSpec diffIds sortedUnique maxTargets)

/-! ## What is stored and what is asked -/

/-- The target in the resolution of a schedule. -/
structure StoredTarget where
  selector : Option String
  picked : Option (List String)
  excluded : List String

structure State where
  tables : Tables
  targets : String → StoredTarget

structure ReResolveRequest where
  dryRun : Bool
  expectedDiff : Option (List String × List String)
  confirmProd : Option Nat

structure ScheduleNodeState where
  nodeId : String
  state : String
  deriving DecidableEq, Repr

structure Warning where
  nodeId : String
  code : String

structure ReResolveResponse where
  dryRun : Bool
  added : List String
  removed : List String
  prodNodeIds : List String
  perNode : List ScheduleNodeState
  warnings : List Warning

inductive ReResolveError where
  | scheduleUnknown
  | target (error : TargetError)
  /-- The database fails the transaction. -/
  | database

/-! ## Matching anew -/

section
variable {inventory : List InventoryNode} {target : StoredTarget} {live : List String}

theorem rematch_sorted
    (h : rematch inventory target.selector target.picked target.excluded = .ok live) :
    live.Pairwise (· < ·) := by
  rw [rematch] at h
  split at h
  · cases h
    exact .nil
  · next body _ =>
    simp only [Check.bind_eq_ok] at h
    obtain ⟨parsed, hparsed, hlive⟩ := h
    split at hlive
    · next ids hmode =>
      cases hlive
      obtain ⟨-, -, hmodes⟩ := parseTarget_ok hparsed
      rcases hmodes with ⟨texts, -, -, hnodes⟩ | ⟨raw, selector, -, -, -, hselector⟩
      · cases hmode.symm.trans hnodes
        exact (sortedUnique_sorted texts).filter _
      · cases hmode.symm.trans hselector
    · simp only [Check.bind_eq_ok, Check.pure_eq_ok] at hlive
      obtain ⟨matched, -, rfl⟩ := hlive
      exact matched.sorted

end

/-- The nodes that a stored target matches, in order. -/
structure Live where
  nodeIds : List String
  sorted : nodeIds.Pairwise (· < ·)

def Live.of (inventory : List InventoryNode) (target : StoredTarget) : Except TargetError Live :=
  match h : rematch inventory target.selector target.picked target.excluded with
  | .ok nodeIds => .ok ⟨nodeIds, rematch_sorted h⟩
  | .error error => .error error

/-- `current_drift`. -/
def currentDrift (inventory : List InventoryNode) (target : StoredTarget) (stored : List String) :
    Except TargetError (List String × List String) := do
  let live ← Live.of inventory target
  return diffIds stored live.nodeIds

/-! ## Reports -/

def stateText : NodeState → String
  | .active => "active"
  | .skippedExists => "skipped_exists"
  | .removedByNodeEdit => "removed_by_node_edit"

def projectState (nodes : SortedMap String NodeState) (added : List String) (nodeId : String) :
    ScheduleNodeState :=
  if added.contains nodeId then ⟨nodeId, "active"⟩
  else
    match nodes.lookup nodeId with
    | some state => ⟨nodeId, stateText state⟩
    | none => ⟨nodeId, "active"⟩

def projectStates (nodes : SortedMap String NodeState) (live added : List String) :
    List ScheduleNodeState :=
  live.map (projectState nodes added)

/-- What a real run reports of a node that stays or joins. -/
def writtenState (tables : Tables) (id specId : String) (added : List String) (nodeId : String) :
    Option ScheduleNodeState :=
  if added.contains nodeId then
    some ⟨nodeId,
      if hasSpec (entriesOf (tables.configs nodeId)) specId then "skipped_exists" else "active"⟩
  else (tables.state id nodeId).map fun state => ⟨nodeId, stateText state⟩

def writtenStates (tables : Tables) (id specId : String) (live added removed : List String) :
    List ScheduleNodeState :=
  ((removed.map fun nodeId => ScheduleNodeState.mk nodeId "removed") ++
    (live.filter fun nodeId => !removed.contains nodeId).filterMap
      (writtenState tables id specId added)).mergeSort fun left right => left.nodeId ≤ right.nodeId

def specPresent (config : Option Config) (specId : String) : Bool :=
  ((config.bind fun config => config.specs.asArray).getD []).any fun spec =>
    (spec.get "id").bind Json.asStr == some specId

def missingSpecs (tables : Tables) (specId : String) (added : List String) : List Warning :=
  (added.filter fun nodeId => !specPresent (tables.configs nodeId) specId).map
    fun nodeId => ⟨nodeId, "spec_missing"⟩

/-! ## The request -/

/-- The target that a real run parses. -/
def storedBody (target : StoredTarget) (live : List String) : TargetBody :=
  match target.selector.filter (· ≠ "") with
  | some selector => ⟨some selector, none, target.excluded, some live⟩
  | none => ⟨none, some (target.picked.getD live), target.excluded, some live⟩

def ParsedTarget.stored (parsed : ParsedTarget) : StoredTarget :=
  ⟨parsed.selector, parsed.picked, parsed.excluded⟩

/-- The request as it is served, with what it read. -/
def ReResolveRequest.served (body : ReResolveRequest) (live : Live) (prodNodeIds : List String) :
    Schedules.ReResolve :=
  ⟨live.nodeIds, live.sorted.imp ne_of_lt, prodNodeIds, body.expectedDiff, body.dryRun,
    body.confirmProd⟩

/-- The nodes that count as production. -/
def prodOf (inventory : List InventoryNode) (live : List String) : List String :=
  (inventory.filter fun node => node.prod && live.contains node.nodeId).map (·.nodeId)

/-- The transaction of a real run.  The column of the selector is `VARCHAR(1024)`. -/
def reResolveCommit (id : String) (served : Schedules.ReResolve) (current : Schedule)
    (parsed : ParsedTarget) (state : State) : Except ReResolveError State :=
  let (added, removed) := diffIds current.nodeIds served.live
  if parsed.selector.any fun text => 1024 < text.length then throw .database
  else
    match Schedules.applyAll (Schedules.reResolveWrites id served current
      (Schedules.lockedIn state.tables removed) (Schedules.lockedIn state.tables added))
      state.tables with
    | none => throw .database
    | some tables => pure ⟨tables, Function.update state.targets id parsed.stored⟩

/-- A dry run's report. -/
def preview (inventory : List InventoryNode) (id : String) (current : Schedule) (live : Live)
    (state : State) : ReResolveResponse :=
  let (added, removed) := diffIds current.nodeIds live.nodeIds
  ⟨true, added, removed, prodOf inventory live.nodeIds,
    projectStates (state.tables.scheduleNodes id) live.nodeIds added, []⟩

/-- A real run's report. -/
def report (inventory : List InventoryNode) (id : String) (current : Schedule) (live : Live)
    (state : State) : ReResolveResponse :=
  let (added, removed) := diffIds current.nodeIds live.nodeIds
  ⟨false, added, removed, prodOf inventory live.nodeIds,
    writtenStates state.tables id current.specId live.nodeIds added removed,
    missingSpecs state.tables current.specId added⟩

def reResolveRow (inventory : List InventoryNode) (id : String) (body : ReResolveRequest)
    (state : State) (current : Schedule) : Except ReResolveError (ReResolveResponse × State) := do
  let live ← (Live.of inventory (state.targets id)).mapError .target
  let (added, removed) := diffIds current.nodeIds live.nodeIds
  if body.expectedDiff.any fun expected =>
      sortedUnique expected.1 ≠ added || sortedUnique expected.2 ≠ removed then
    throw (.target (.changed added removed))
  if maxTargets < live.nodeIds.length then throw (.target .tooMany)
  if body.dryRun then return (preview inventory id current live state, state)
  let prodNodeIds := prodOf inventory live.nodeIds
  if prodNodeIds ≠ [] ∧ body.confirmProd ≠ some prodNodeIds.length then
    throw (.target (.prod prodNodeIds prodNodeIds.length))
  let parsed ← (parseTarget (storedBody (state.targets id) live.nodeIds)).mapError .target
  let after ← reResolveCommit id (body.served live prodNodeIds) current parsed state
  return (report inventory id current live state, after)

def reResolve (inventory : List InventoryNode) (id : String) (body : ReResolveRequest)
    (state : State) : Except ReResolveError (ReResolveResponse × State) :=
  match state.tables.schedules id with
  | none => throw .scheduleUnknown
  | some current => reResolveRow inventory id body state current

section
variable {inventory : List InventoryNode} {id : String} {body : ReResolveRequest}
  {state after : State} {response : ReResolveResponse}

theorem live_of_ok {target : StoredTarget} {live : Live} :
    Live.of inventory target = .ok live ↔
      rematch inventory target.selector target.picked target.excluded = .ok live.nodeIds := by
  rw [Live.of]
  split
  · next nodeIds h =>
    constructor
    · intro heq
      cases heq
      exact h
    · intro heq
      cases live
      cases h.symm.trans heq
      rfl
  · next error h =>
    refine iff_of_false nofun fun heq => ?_
    cases h.symm.trans heq

/-- What a request that returns has read and checked. -/
structure Ran (inventory : List InventoryNode) (id : String) (body : ReResolveRequest)
    (state : State) (current : Schedule) (live : Live) : Prop where
  row : state.tables.schedules id = some current
  matched : rematch inventory (state.targets id).selector (state.targets id).picked
    (state.targets id).excluded = .ok live.nodeIds
  expected : (body.expectedDiff.any fun expected =>
    sortedUnique expected.1 ≠ (diffIds current.nodeIds live.nodeIds).1 ||
      sortedUnique expected.2 ≠ (diffIds current.nodeIds live.nodeIds).2) = false
  size : live.nodeIds.length ≤ maxTargets

/-- What a real run wrote. -/
structure Committed (inventory : List InventoryNode) (id : String) (body : ReResolveRequest)
    (state after : State) (current : Schedule) (live : Live) (parsed : ParsedTarget) : Prop where
  confirmed : prodOf inventory live.nodeIds = [] ∨
    body.confirmProd = some (prodOf inventory live.nodeIds).length
  target : parseTarget (storedBody (state.targets id) live.nodeIds) = .ok parsed
  column : ∀ text, parsed.selector = some text → text.length ≤ 1024
  tables : Schedules.applyAll (Schedules.reResolveWrites id
    (body.served live (prodOf inventory live.nodeIds)) current
    (Schedules.lockedIn state.tables (diffIds current.nodeIds live.nodeIds).2)
    (Schedules.lockedIn state.tables (diffIds current.nodeIds live.nodeIds).1)) state.tables =
      some after.tables
  targets : after.targets = Function.update state.targets id parsed.stored

theorem reResolveCommit_ok {served : Schedules.ReResolve} {current : Schedule}
    {parsed : ParsedTarget} :
    reResolveCommit id served current parsed state = .ok after ↔
      (∀ text, parsed.selector = some text → text.length ≤ 1024) ∧
      Schedules.applyAll (Schedules.reResolveWrites id served current
        (Schedules.lockedIn state.tables (diffIds current.nodeIds served.live).2)
        (Schedules.lockedIn state.tables (diffIds current.nodeIds served.live).1)) state.tables =
          some after.tables ∧
      after.targets = Function.update state.targets id parsed.stored := by
  rw [reResolveCommit]
  dsimp only
  rw [Check.ite_throw_eq_ok, Bool.not_eq_true, Option.any_eq_false]
  refine and_congr ?_ ?_
  · simp
  · split
    · next hnone => simp [hnone]
    · next tables hsome =>
      rw [hsome, Check.pure_eq_ok]
      constructor
      · rintro rfl
        exact ⟨rfl, rfl⟩
      · rintro ⟨htables, htargets⟩
        cases after
        cases htables
        cases htargets
        rfl

theorem reResolve_some {current : Schedule} (hcurrent : state.tables.schedules id = some current) :
    reResolve inventory id body state = reResolveRow inventory id body state current := by
  rw [reResolve, hcurrent]

theorem reResolve_none (hnone : state.tables.schedules id = none) :
    reResolve inventory id body state ≠ .ok (response, after) := by
  rw [reResolve, hnone]
  nofun

/-- A dry run returns if and only if it passes the checks. -/
theorem reResolve_dry_iff (hdry : body.dryRun = true) :
    reResolve inventory id body state = .ok (response, after) ↔
      ∃ current live, Ran inventory id body state current live ∧
        response = preview inventory id current live state ∧ after = state := by
  cases hcurrent : state.tables.schedules id with
  | none =>
    refine iff_of_false (reResolve_none hcurrent) ?_
    rintro ⟨current, live, hran, -⟩
    cases hcurrent.symm.trans hran.row
  | some current =>
    rw [reResolve_some hcurrent, reResolveRow]
    simp only [Check.bind_eq_ok, Check.mapError_eq_ok, Check.throw_bind, Check.ite_throw_eq_ok, hdry,
      if_true, Check.pure_eq_ok]
    constructor
    · rintro ⟨live, hlive, hexpected, hsize, hreturn⟩
      cases hreturn
      exact ⟨current, live, ⟨hcurrent, live_of_ok.mp hlive, Bool.not_eq_true _ ▸ hexpected,
        not_lt.mp hsize⟩, rfl, rfl⟩
    · rintro ⟨other, live, hran, rfl, rfl⟩
      cases hcurrent.symm.trans hran.row
      exact ⟨live, live_of_ok.mpr hran.matched, Bool.not_eq_true _ ▸ hran.expected,
        not_lt.mpr hran.size, rfl⟩

/-- A real run returns if and only if it passes the checks and commits. -/
theorem reResolve_real_iff (hreal : body.dryRun = false) :
    reResolve inventory id body state = .ok (response, after) ↔
      ∃ current live, Ran inventory id body state current live ∧
        response = report inventory id current live state ∧
        ∃ parsed, Committed inventory id body state after current live parsed := by
  cases hcurrent : state.tables.schedules id with
  | none =>
    refine iff_of_false (reResolve_none hcurrent) ?_
    rintro ⟨current, live, hran, -⟩
    cases hcurrent.symm.trans hran.row
  | some current =>
    rw [reResolve_some hcurrent, reResolveRow]
    simp only [Check.bind_eq_ok, Check.mapError_eq_ok, Check.throw_bind, Check.ite_throw_eq_ok, hreal,
      Bool.false_eq_true, if_false, Check.pure_eq_ok]
    constructor
    · rintro ⟨live, hlive, hexpected, hsize, hprod, parsed, hparsed, committed, hcommit, hreturn⟩
      cases hreturn
      obtain ⟨hcolumn, htables, htargets⟩ := reResolveCommit_ok.mp hcommit
      have hconfirmed := not_and_or.mp hprod
      rw [not_not, not_not] at hconfirmed
      exact ⟨current, live, ⟨hcurrent, live_of_ok.mp hlive, Bool.not_eq_true _ ▸ hexpected,
        not_lt.mp hsize⟩, rfl, parsed, hconfirmed, hparsed, hcolumn, htables, htargets⟩
    · rintro ⟨other, live, hran, rfl, parsed, hcommitted⟩
      cases hcurrent.symm.trans hran.row
      refine ⟨live, live_of_ok.mpr hran.matched, Bool.not_eq_true _ ▸ hran.expected,
        not_lt.mpr hran.size, ?_, parsed, hcommitted.target, after, ?_, rfl⟩
      · rintro ⟨hprod, hconfirm⟩
        exact hcommitted.confirmed.elim hprod hconfirm
      · exact reResolveCommit_ok.mpr ⟨hcommitted.column, hcommitted.tables, hcommitted.targets⟩

end

/-! ## Stored targets -/

section
variable {inventory : List InventoryNode} {target : StoredTarget} {parsed : ParsedTarget}
  {live texts : List String}

/-- Two lists in order with the same ids are the same. -/
theorem eq_of_sorted {ids ids' : List String} (h : ids.Pairwise (· < ·)) (h' : ids'.Pairwise (· < ·))
    (hmem : ∀ id, id ∈ ids ↔ id ∈ ids') : ids = ids' := by
  have hperm : ids.Perm ids' :=
    (List.perm_ext_iff_of_nodup (h.imp ne_of_lt) (h'.imp ne_of_lt)).mpr hmem
  exact hperm.eq_of_pairwise (fun a b _ _ hab hba => absurd (hab.trans hba) (lt_irrefl a)) h h'

theorem named_sortedUnique {id : String} : Named (sortedUnique texts) id ↔ Named texts id := by
  constructor
  · rintro ⟨text, htext, rfl, hne⟩
    obtain ⟨raw, hraw, rfl, -⟩ := mem_sortedUnique.mp htext
    have htrim : trimmed (trimmed raw) = trimmed raw := by
      rw [trimmed, trimmed, String.toList_ofList, trim_trim]
    rw [htrim] at hne ⊢
    exact ⟨raw, hraw, rfl, hne⟩
  · rintro ⟨text, htext, rfl, hne⟩
    refine ⟨trimmed text, mem_sortedUnique.mpr ⟨text, htext, rfl, hne⟩, ?_, hne⟩
    rw [trimmed, trimmed, String.toList_ofList, trim_trim]

theorem sortedUnique_again : sortedUnique (sortedUnique texts) = sortedUnique texts :=
  eq_of_sorted (sortedUnique_sorted _) (sortedUnique_sorted _) fun _ =>
    mem_sortedUnique.trans (named_sortedUnique.trans mem_sortedUnique.symm)

/-- Canonical text that fits its column is reread. -/
theorem reread_of_length {input : List Char} {selector : SelectorParse}
    (h : parseSelector input = .ok selector)
    (hlength : ∀ text, canonicalSelector selector = some text → text.length ≤ maxSelectorChars) :
    Reread selector := by
  cases selector with
  | empty => exact fun text htext => by cases htext
  | all =>
    intro text htext
    cases htext
    exact ⟨by decide, .all, by decide, rfl, fun _ => Iff.rfl⟩
  | filter selector =>
    obtain ⟨-, reqs, hlists, hcount, hfits, hagree, rfl⟩ := Tags.parseSelector_filter_iff.mp h
    have hproper := Tags.proper_of_lists hlists hcount hfits hagree
    refine (reread_filter_iff hproper).mpr ?_
    rw [← hproper.length]
    exact Nat.succ_le_succ (hlength _ rfl)

theorem parseTarget_selector {raw : String} {excluded : List String}
    {expected : Option (List String)}
    (h : parseTarget ⟨some raw, none, excluded, expected⟩ = .ok parsed) :
    ∃ selector, parseSelector (trim raw.toList) = .ok selector ∧ selector ≠ .empty ∧
      parsed.stored = ⟨canonicalSelector selector, none, sortedUnique excluded⟩ := by
  rw [parseTarget] at h
  dsimp only at h
  split at h
  · cases h
  · cases h
  · next text htext _ =>
    simp only [Check.bind_eq_ok, Check.throw_bind, Check.mapError_eq_ok, Check.ite_throw_eq_ok,
      Check.pure_eq_ok] at h
    obtain ⟨selector, hselector, hne, rfl⟩ := h
    obtain ⟨hmap, -⟩ := Option.filter_eq_some_iff.mp htext
    cases hmap
    rw [trimmed, String.toList_ofList] at hselector
    exact ⟨selector, hselector, hne, rfl⟩
  · next hnodes => cases hnodes

/-- The text that a run stores is not empty, and it is read again as it is. -/
theorem stored_again {raw : String} {selector : SelectorParse}
    (hselector : parseSelector (trim raw.toList) = .ok selector) (hne : selector ≠ .empty)
    (hcolumn : ∀ text, canonicalSelector selector = some text → text.length ≤ 1024) :
    ∃ text again, canonicalSelector selector = some text ∧ text ≠ "" ∧
      parseSelector (trim text.toList) = .ok again ∧ canonicalSelector again = some text := by
  have hreread := reread_of_length hselector hcolumn
  obtain ⟨text, htext⟩ : ∃ text, canonicalSelector selector = some text := by
    cases selector with
    | empty => exact absurd rfl hne
    | all => exact ⟨_, rfl⟩
    | filter selector => exact ⟨_, rfl⟩
  obtain ⟨-, again, hagain, hsame, -⟩ := hreread text htext
  have hkept : again ≠ .empty := by
    rintro rfl
    cases hsame
  refine ⟨text, again, htext, ?_, Tags.parseSelector_trim hagain hkept, hsame⟩
  rintro rfl
  have hempty : parseSelector "".toList = .ok .empty := by decide
  rw [hempty] at hagain
  cases hagain
  exact hkept rfl

theorem filter_text {text : String} (h : text ≠ "") : (some text).filter (· ≠ "") = some text :=
  Option.filter_some_pos (by simpa using h)

theorem rematch_picked (inventory : List InventoryNode) (texts excluded : List String) :
    rematch inventory none (some texts) excluded =
      .ok ((sortedUnique texts).filter fun id =>
        !(sortedUnique excluded).contains id && inventory.any fun node => node.nodeId = id) :=
  rfl

/-- The target that a real run stores matches the nodes that it wrote. -/
theorem rematch_stored
    (hlive : rematch inventory target.selector target.picked target.excluded = .ok live)
    (hparsed : parseTarget (storedBody target live) = .ok parsed)
    (hcolumn : ∀ text, parsed.selector = some text → text.length ≤ 1024) :
    rematch inventory parsed.stored.selector parsed.stored.picked parsed.stored.excluded =
      .ok live := by
  rw [storedBody] at hparsed
  split at hparsed
  · next raw hraw =>
    obtain ⟨selector, hselector, hne, hstored⟩ := parseTarget_selector hparsed
    have hwritten : parsed.selector = canonicalSelector selector :=
      congrArg StoredTarget.selector hstored
    rw [hwritten] at hcolumn
    obtain ⟨text, -, htext, -, -, -⟩ := stored_again hselector hne hcolumn
    have hreread := reread_of_length hselector hcolumn
    obtain ⟨ids, hids, hmem⟩ :=
      @mem_rematch _ inventory raw text (sortedUnique target.excluded) hselector hreread htext
    have hsome : raw ≠ "" := by simpa using (Option.filter_eq_some_iff.mp hraw).2
    have hbefore : rematch inventory (some raw) none target.excluded = .ok live := by
      rw [← hlive, rematch, rematch, hraw, filter_text hsome]
    obtain ⟨parsed', matched, hparsed', hmatched, hrematch⟩ :=
      rematch_selector inventory target.excluded hselector hne
    cases hbefore.symm.trans hrematch
    have hsorted : ids.Pairwise (· < ·) :=
      @rematch_sorted inventory ⟨some text, none, sortedUnique target.excluded⟩ _ hids
    have hsame : ids = matched.nodes.map (·.nodeId) := by
      refine eq_of_sorted hsorted matched.sorted fun id => ?_
      rw [hmem, mem_resolveParsed hparsed' hmatched, Targeted, Targeted, named_sortedUnique]
    rw [hstored, htext, hids, hsame]
  · next hnone =>
    cases hparsed
    have hbefore : live = ((sortedUnique (target.picked.getD live)).filter fun id =>
        !(sortedUnique target.excluded).contains id &&
          inventory.any fun node => node.nodeId = id) := by
      rw [rematch, hnone] at hlive
      cases hpicked : target.picked with
      | none =>
        rw [hpicked] at hlive
        cases hlive
        rfl
      | some ids =>
        rw [hpicked] at hlive
        cases hlive
        rfl
    show rematch inventory none (some (sortedUnique (target.picked.getD live)))
      (sortedUnique target.excluded) = .ok live
    rw [rematch_picked, sortedUnique_again, sortedUnique_again, ← hbefore]

/-- A second run stores the same target. -/
theorem stored_stored {parsed' : ParsedTarget}
    (hparsed : parseTarget (storedBody target live) = .ok parsed)
    (hcolumn : ∀ text, parsed.selector = some text → text.length ≤ 1024)
    (hagain : parseTarget (storedBody parsed.stored texts) = .ok parsed') :
    parsed'.stored = parsed.stored := by
  rw [storedBody] at hparsed
  split at hparsed
  · next raw hraw =>
    obtain ⟨selector, hselector, hne, hstored⟩ := parseTarget_selector hparsed
    have hwritten : parsed.selector = canonicalSelector selector :=
      congrArg StoredTarget.selector hstored
    rw [hwritten] at hcolumn
    obtain ⟨text, again, htext, hkept, hread, hsame⟩ := stored_again hselector hne hcolumn
    rw [hstored, htext, storedBody, filter_text hkept] at hagain
    obtain ⟨other, hother, -, hstored'⟩ := parseTarget_selector hagain
    cases hread.symm.trans hother
    rw [hstored', hstored, htext, hsame]
    exact congrArg _ sortedUnique_again
  · next hnone =>
    cases hparsed
    cases hagain
    show StoredTarget.mk none (some (sortedUnique (sortedUnique (target.picked.getD live))))
        (sortedUnique (sortedUnique target.excluded)) =
      ⟨none, some (sortedUnique (target.picked.getD live)), sortedUnique target.excluded⟩
    rw [sortedUnique_again, sortedUnique_again]

end

/-! ## No drift -/

/-- The target of the schedule matches its nodes, and no run changes anything. -/
structure Settled (inventory : List InventoryNode) (id : String) (state : State) : Prop where
  drift : ∃ current, state.tables.schedules id = some current ∧
    currentDrift inventory (state.targets id) current.nodeIds = .ok ([], [])
  again : ∀ body response after, reResolve inventory id body state = .ok (response, after) →
    response.added = [] ∧ response.removed = [] ∧ after = state

section
variable {inventory : List InventoryNode} {id : String} {body : ReResolveRequest}
  {state after : State} {current : Schedule} {live : Live} {parsed : ParsedTarget}

theorem diffIds_self (ids : List String) : diffIds ids ids = ([], []) := by
  simp [diffIds, List.filter_eq_nil_iff]

/-- A resolution with the nodes of the row changes no table. -/
theorem applyAll_setResolution {tables : Tables} {row : Schedule} {nodeIds : List String}
    {distinct : nodeIds.Nodup} (hrow : tables.schedules id = some row)
    (hnodes : row.nodeIds = nodeIds) :
    Schedules.applyAll [.setResolution id nodeIds distinct] tables = some tables := by
  subst hnodes
  have hkept : (fun other => (Schedules.Write.setResolution id row.nodeIds row.distinct).schedule
      other (tables.schedules other)) = tables.schedules := by
    funext other
    by_cases hid : id = other
    · subst hid
      rw [Schedules.Write.schedule, if_pos rfl, hrow]
      rfl
    · exact if_neg hid
  show some (Tables.mk tables.nodes _ _ _) = some tables
  rw [hkept]
  rfl

theorem Committed.row (h : Committed inventory id body state after current live parsed)
    (hcurrent : state.tables.schedules id = some current) :
    ∃ row, after.tables.schedules id = some row ∧ row.nodeIds = live.nodeIds := by
  have hlocked : ∀ l ∈ Schedules.lockedIn state.tables (diffIds current.nodeIds live.nodeIds).2 ++
      Schedules.lockedIn state.tables (diffIds current.nodeIds live.nodeIds).1,
      state.tables.configs l.1 = l.2 := fun l hl =>
    (List.mem_append.mp hl).elim (Schedules.configs_lockedIn l) (Schedules.configs_lockedIn l)
  refine ⟨{ current with nodeIds := live.nodeIds, distinct := live.sorted.imp ne_of_lt },
    (Schedules.reResolve_schedule (Schedules.lockedIn_map _ _) (Schedules.lockedIn_map _ _)
      hlocked (Schedules.applied_of_applyAll h.tables)).trans ?_, rfl⟩
  rw [hcurrent]
  exact if_pos rfl

/-- A real run leaves no drift. -/
theorem reResolve_settles (hran : Ran inventory id body state current live)
    (h : Committed inventory id body state after current live parsed) :
    Settled inventory id after := by
  obtain ⟨row, hrow, hnodes⟩ := h.row hran.row
  have htarget : after.targets id = parsed.stored := by rw [h.targets, Function.update_self]
  have hmatched : rematch inventory (after.targets id).selector (after.targets id).picked
      (after.targets id).excluded = .ok live.nodeIds := by
    rw [htarget]
    exact rematch_stored hran.matched h.target h.column
  constructor
  · refine ⟨row, hrow, ?_⟩
    have hlive : Live.of inventory (after.targets id) = .ok live := live_of_ok.mpr hmatched
    rw [currentDrift, hlive, hnodes]
    exact congrArg _ (diffIds_self live.nodeIds)
  · intro body' response later hlater
    have hsame : ∀ {live' : Live}, Ran inventory id body' after row live' →
        row.nodeIds = live'.nodeIds := fun hran' =>
      hnodes.trans (Except.ok.inj (hmatched.symm.trans hran'.matched))
    have hdiff : ∀ {live' : Live}, Ran inventory id body' after row live' →
        diffIds row.nodeIds live'.nodeIds = ([], []) := by
      intro live' hran'
      rw [hsame hran', diffIds_self]
    cases hdry : body'.dryRun with
    | true =>
      obtain ⟨current', live', hran', rfl, rfl⟩ := (reResolve_dry_iff hdry).mp hlater
      cases hrow.symm.trans hran'.row
      rw [preview, hdiff hran']
      exact ⟨rfl, rfl, rfl⟩
    | false =>
      obtain ⟨current', live', hran', rfl, parsed', hcommitted⟩ := (reResolve_real_iff hdry).mp hlater
      cases hrow.symm.trans hran'.row
      rw [report, hdiff hran']
      refine ⟨rfl, rfl, ?_⟩
      have htables : some later.tables = some after.tables := by
        have hwritten := hcommitted.tables
        rw [hdiff hran'] at hwritten
        exact hwritten.symm.trans (applyAll_setResolution hrow (hsame hran'))
      have htargets : later.targets = after.targets := by
        have hagain := hcommitted.target
        rw [htarget] at hagain
        rw [hcommitted.targets, stored_stored h.target h.column hagain, ← htarget,
          Function.update_eq_self]
      cases later
      cases Option.some.inj htables
      cases htargets
      rfl

end

/-! ## Projections -/

/-- No node leaves, no node that joins runs the spec already, and every node that stays has its
row. -/
structure Plain (tables : Tables) (id : String) (current : Schedule) (live : List String) :
    Prop where
  stays : ∀ nodeId ∈ current.nodeIds, nodeId ∈ live
  joins : ∀ nodeId ∈ live, nodeId ∉ current.nodeIds →
    hasSpec (entriesOf (tables.configs nodeId)) current.specId = false
  rows : ∀ nodeId ∈ live, nodeId ∈ current.nodeIds → (tables.state id nodeId).isSome = true

section
variable {tables : Tables} {id : String} {current : Schedule} {live : List String}

theorem mem_added {nodeId : String} :
    nodeId ∈ (diffIds current.nodeIds live).1 ↔ nodeId ∈ live ∧ nodeId ∉ current.nodeIds := by
  simp [diffIds]

theorem mem_removed {nodeId : String} :
    nodeId ∈ (diffIds current.nodeIds live).2 ↔ nodeId ∈ current.nodeIds ∧ nodeId ∉ live := by
  simp [diffIds]

theorem nodeId_projectState (nodes : SortedMap String NodeState) (added : List String)
    (nodeId : String) : (projectState nodes added nodeId).nodeId = nodeId := by
  rw [projectState]
  split
  · rfl
  · split
    · rfl
    · rfl

theorem nodeId_writtenState {specId nodeId : String} {added : List String}
    {report : ScheduleNodeState}
    (h : writtenState tables id specId added nodeId = some report) : report.nodeId = nodeId := by
  rw [writtenState] at h
  split at h
  · cases h
    rfl
  · obtain ⟨state, -, rfl⟩ := Option.map_eq_some_iff.mp h
    rfl

theorem mem_writtenStates {specId : String} {added removed : List String}
    {report : ScheduleNodeState} :
    report ∈ writtenStates tables id specId live added removed ↔
      (∃ nodeId ∈ removed, ⟨nodeId, "removed"⟩ = report) ∨
        ∃ nodeId ∈ live, nodeId ∉ removed ∧
          writtenState tables id specId added nodeId = some report := by
  rw [writtenStates, List.mem_mergeSort, List.mem_append, List.mem_map, List.mem_filterMap]
  simp [and_assoc]

/-- A projected state is written as it is. -/
theorem writtenState_of_plain (h : Plain tables id current live) {nodeId : String}
    (hlive : nodeId ∈ live) :
    writtenState tables id current.specId (diffIds current.nodeIds live).1 nodeId =
      some (projectState (tables.scheduleNodes id) (diffIds current.nodeIds live).1 nodeId) := by
  rw [writtenState, projectState]
  by_cases hadded : nodeId ∈ (diffIds current.nodeIds live).1
  · rw [if_pos (List.contains_iff_mem.mpr hadded), if_pos (List.contains_iff_mem.mpr hadded),
      h.joins nodeId hlive (mem_added.mp hadded).2, if_neg Bool.false_ne_true]
  · have hcontains : ¬ (diffIds current.nodeIds live).1.contains nodeId = true :=
      fun hmem => hadded (List.contains_iff_mem.mp hmem)
    have hnode : nodeId ∈ current.nodeIds := by
      by_contra hnot
      exact hadded (mem_added.mpr ⟨hlive, hnot⟩)
    obtain ⟨state, hstate⟩ := Option.isSome_iff_exists.mp (h.rows nodeId hlive hnode)
    have hlookup : (tables.scheduleNodes id).lookup nodeId = some state := hstate
    rw [if_neg hcontains, if_neg hcontains, hstate, hlookup]
    rfl

/-- The projection is what is written if and only if the configs and the nodes that leave make no
difference. -/
theorem projection_iff (hsorted : live.Pairwise (· < ·)) :
    projectStates (tables.scheduleNodes id) live (diffIds current.nodeIds live).1 =
        writtenStates tables id current.specId live (diffIds current.nodeIds live).1
          (diffIds current.nodeIds live).2 ↔
      Plain tables id current live := by
  constructor
  · intro heq
    have hprojected : ∀ nodeId ∈ live, projectState (tables.scheduleNodes id)
        (diffIds current.nodeIds live).1 nodeId ∈ writtenStates tables id current.specId live
          (diffIds current.nodeIds live).1 (diffIds current.nodeIds live).2 := by
      intro nodeId hlive
      rw [← heq]
      exact List.mem_map_of_mem hlive
    -- A node that stays or joins is written with the state that is projected.
    have hsame : ∀ nodeId ∈ live, writtenState tables id current.specId
        (diffIds current.nodeIds live).1 nodeId =
          some (projectState (tables.scheduleNodes id) (diffIds current.nodeIds live).1 nodeId) := by
      intro nodeId hlive
      rcases mem_writtenStates.mp (hprojected nodeId hlive) with ⟨gone, hgone, hreport⟩ |
        ⟨other, -, -, hreport⟩
      · have hid := congrArg ScheduleNodeState.nodeId hreport
        rw [nodeId_projectState] at hid
        cases hid
        exact absurd hlive (mem_removed.mp hgone).2
      · have hid := nodeId_writtenState hreport
        rw [nodeId_projectState] at hid
        rw [hid]
        exact hid ▸ hreport
    constructor
    · intro nodeId hnode
      by_contra hnot
      have hwritten : (⟨nodeId, "removed"⟩ : ScheduleNodeState) ∈ writtenStates tables id
          current.specId live (diffIds current.nodeIds live).1 (diffIds current.nodeIds live).2 :=
        mem_writtenStates.mpr (.inl ⟨nodeId, mem_removed.mpr ⟨hnode, hnot⟩, rfl⟩)
      rw [← heq] at hwritten
      obtain ⟨other, hlive, hreport⟩ := List.mem_map.mp hwritten
      have hid : (projectState (tables.scheduleNodes id) (diffIds current.nodeIds live).1
          other).nodeId = nodeId := congrArg ScheduleNodeState.nodeId hreport
      rw [nodeId_projectState] at hid
      exact hnot (hid ▸ hlive)
    · intro nodeId hlive hnew
      have hadded := List.contains_iff_mem.mpr (mem_added.mpr ⟨hlive, hnew⟩)
      have hwritten := hsame nodeId hlive
      rw [writtenState, projectState, if_pos hadded, if_pos hadded] at hwritten
      cases hspec : hasSpec (entriesOf (tables.configs nodeId)) current.specId with
      | false => rfl
      | true =>
        rw [hspec, if_pos rfl] at hwritten
        have htext : "skipped_exists" = "active" :=
          congrArg ScheduleNodeState.state (Option.some.inj hwritten)
        exact absurd htext (by decide)
    · intro nodeId hlive hnode
      have hkept : ¬ (diffIds current.nodeIds live).1.contains nodeId = true :=
        fun hmem => (mem_added.mp (List.contains_iff_mem.mp hmem)).2 hnode
      have hwritten := hsame nodeId hlive
      rw [writtenState, if_neg hkept] at hwritten
      obtain ⟨state, hstate, -⟩ := Option.map_eq_some_iff.mp hwritten
      rw [hstate]
      rfl
  · intro hplain
    have hnone : (diffIds current.nodeIds live).2 = [] :=
      List.eq_nil_iff_forall_not_mem.mpr fun nodeId hmem =>
        (mem_removed.mp hmem).2 (hplain.stays nodeId (mem_removed.mp hmem).1)
    have hall : (live.filter fun nodeId => !([] : List String).contains nodeId) = live :=
      List.filter_eq_self.mpr fun _ _ => rfl
    have hmap : live.filterMap (writtenState tables id current.specId
        (diffIds current.nodeIds live).1) = live.map (projectState (tables.scheduleNodes id)
          (diffIds current.nodeIds live).1) := by
      rw [← List.filterMap_eq_map]
      exact List.filterMap_congr fun nodeId hlive => writtenState_of_plain hplain hlive
    rw [projectStates, writtenStates, hnone, hall, hmap, List.map_nil, List.nil_append]
    refine (List.mergeSort_of_pairwise ?_).symm
    rw [List.pairwise_map]
    refine hsorted.imp fun hlt => ?_
    rw [nodeId_projectState, nodeId_projectState]
    exact decide_eq_true hlt.le

end

/-! ## The claim of a dry run -/

section
variable {inventory : List InventoryNode} {id : String} {body : ReResolveRequest}
  {state after : State} {real : ReResolveResponse}

/-- The stored target has all nodes of the schedule, and the others have neither lost their row
nor run the spec. -/
def Foreseen (inventory : List InventoryNode) (id : String) (state : State) : Prop :=
  ∃ current live, state.tables.schedules id = some current ∧
    rematch inventory (state.targets id).selector (state.targets id).picked
      (state.targets id).excluded = .ok live ∧ Plain state.tables id current live

/-- The tables are those that the request leaves when it runs alone. -/
theorem reResolve_alone {response : ReResolveResponse} (uuid : String)
    (h : reResolve inventory id body state = .ok (response, after)) :
    ∃ live : Live, after.tables = (Schedules.Request.reResolve id
      (body.served live (prodOf inventory live.nodeIds))).alone uuid state.tables := by
  cases hdry : body.dryRun with
  | true =>
    obtain ⟨current, live, hran, -, rfl⟩ := (reResolve_dry_iff hdry).mp h
    refine ⟨live, (Schedules.alone_refused ?_).symm⟩
    rintro ⟨current', -, hstops⟩
    simp [Schedules.ReResolve.stops, ReResolveRequest.served, hdry] at hstops
  | false =>
    obtain ⟨current, live, hran, -, parsed, hcommitted⟩ := (reResolve_real_iff hdry).mp h
    have hruns : (body.served live (prodOf inventory live.nodeIds)).stops
        (diffIds current.nodeIds live.nodeIds).1 (diffIds current.nodeIds live.nodeIds).2 = false := by
      have hexpected := hran.expected
      simp only [ne_eq, decide_not] at hexpected
      have hsize := not_lt.mpr hran.size
      rcases hcommitted.confirmed with hnone | hconfirm
      · simp [Schedules.ReResolve.stops, ReResolveRequest.served, hdry, hexpected, hsize, hnone]
      · simp [Schedules.ReResolve.stops, ReResolveRequest.served, hdry, hexpected, hsize, hconfirm]
    refine ⟨live, ?_⟩
    rw [Schedules.alone_reResolve hran.row hruns, Schedules.committed]
    exact (congrArg (Option.getD · state.tables) hcommitted.tables).symm

/-- A real run leaves no drift and does what a dry run of the same request reports if and only if
no node leaves, no node that joins runs the spec, and every other node has its row. -/
theorem reResolve_iff
    (h : reResolve inventory id { body with dryRun := false } state = .ok (real, after)) :
    (Settled inventory id after ∧
      ∃ dry, reResolve inventory id { body with dryRun := true } state = .ok (dry, state) ∧
        dry.added = real.added ∧ dry.removed = real.removed ∧ dry.perNode = real.perNode) ↔
      Foreseen inventory id state := by
  obtain ⟨current, live, hran, rfl, parsed, hcommitted⟩ := (reResolve_real_iff rfl).mp h
  have hdry : reResolve inventory id { body with dryRun := true } state =
      .ok (preview inventory id current live state, state) :=
    (reResolve_dry_iff rfl).mpr ⟨current, live, ⟨hran.row, hran.matched, hran.expected, hran.size⟩,
      rfl, rfl⟩
  constructor
  · rintro ⟨-, dry, hreturns, -, -, hstates⟩
    cases hdry.symm.trans hreturns
    exact ⟨current, live.nodeIds, hran.row, hran.matched, (projection_iff live.sorted).mp hstates⟩
  · rintro ⟨current', live', hcurrent, hlive, hplain⟩
    cases hran.row.symm.trans hcurrent
    cases hran.matched.symm.trans hlive
    exact ⟨reResolve_settles hran hcommitted, _, hdry, rfl, rfl, (projection_iff live.sorted).mpr hplain⟩

end

/-! ### A node that joins -/

def pair : List InventoryNode := [⟨"a", .empty, false⟩, ⟨"b", .empty, false⟩]

/-- A schedule of two picked nodes, of which the second one registered later. -/
def grown (schedules : Json) : State where
  tables :=
    { nodes := fun _ => true
      configs := fun nodeId => if nodeId = "b" then some ⟨1, .arr [], schedules⟩ else none
      schedules := fun id =>
        if id = "1" then some ⟨"acme/sweep", some 60, none, true, ["a"], by simp⟩ else none
      scheduleNodes := fun _ => .ofList [("a", .active)] }
  targets _ := ⟨none, some ["a", "b"], []⟩

theorem pair_real_run {schedules : Json}
    (h : (reResolve pair "1" ⟨false, none, none⟩ (grown schedules)).isOk = true) :
    ∃ real after, reResolve pair "1" ⟨false, none, none⟩ (grown schedules) = .ok (real, after) := by
  cases hrun : reResolve pair "1" ⟨false, none, none⟩ (grown schedules) with
  | error error =>
    rw [hrun] at h
    cases h
  | ok done => exact ⟨done.1, done.2, rfl⟩

theorem reResolve_iff_grown : ∃ real after,
    reResolve pair "1" ⟨false, none, none⟩ (grown (.arr [])) = .ok (real, after) ∧
    Settled pair "1" after ∧
      ∃ dry, reResolve pair "1" ⟨true, none, none⟩ (grown (.arr [])) =
          .ok (dry, grown (.arr [])) ∧
        dry.added = real.added ∧ dry.removed = real.removed ∧ dry.perNode = real.perNode := by
  obtain ⟨real, after, hrun⟩ := @pair_real_run (.arr []) (by decide +kernel)
  have hforeseen : Foreseen pair "1" (grown (.arr [])) :=
    ⟨_, ["a", "b"], rfl, by rfl, by decide, by decide, by decide⟩
  exact ⟨real, after, hrun, (@reResolve_iff _ _ ⟨false, none, none⟩ _ _ _ hrun).mpr hforeseen⟩

def sweeping : Json := .arr [.obj [("spec_id", .str "acme/sweep")]]

/-- The node that joins runs the spec, and the dry run reports the schedule active there. -/
theorem dry_run_ignores_configs : ∃ real after dry,
    reResolve pair "1" ⟨false, none, none⟩ (grown sweeping) = .ok (real, after) ∧
    reResolve pair "1" ⟨true, none, none⟩ (grown sweeping) = .ok (dry, grown sweeping) ∧
    ⟨"b", "active"⟩ ∈ dry.perNode ∧ ⟨"b", "active"⟩ ∉ real.perNode := by
  obtain ⟨real, after, hreal⟩ := @pair_real_run sweeping (by decide +kernel)
  obtain ⟨current, live, hran, rfl, -⟩ := (reResolve_real_iff rfl).mp hreal
  cases hran.row
  have hlive : rematch pair none (some ["a", "b"]) [] = .ok ["a", "b"] := by rfl
  have hnodes : live.nodeIds = ["a", "b"] := Except.ok.inj (hran.matched.symm.trans hlive)
  have hdry : reResolve pair "1" ⟨true, none, none⟩ (grown sweeping) =
      .ok (preview pair "1" _ live (grown sweeping), grown sweeping) :=
    (reResolve_dry_iff rfl).mpr ⟨_, live, ⟨hran.row, hran.matched, hran.expected, hran.size⟩, rfl, rfl⟩
  refine ⟨_, after, _, hreal, hdry, ?_, ?_⟩
  · rw [preview, hnodes]
    decide
  · intro hmem
    rw [report, hnodes] at hmem
    rcases mem_writtenStates.mp hmem with ⟨nodeId, hgone, -⟩ | ⟨nodeId, -, -, hwritten⟩
    · revert hgone
      decide +revert
    · have hid := nodeId_writtenState hwritten
      cases hid
      revert hwritten
      decide

end Novbot.Targets
