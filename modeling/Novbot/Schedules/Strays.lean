import Novbot.Schedules.Alone

/-!
# Entries that no row governs

A patch of a target schedule reaches the nodes whose rows are active.  A row that stopped being
active never becomes active again, whatever is put in the config of its node, so an operator who
puts back an entry with the schedule's origin has one that no patch reaches.

`entries_governed_iff` says for every sequence of requests, each run to its end, that the rows of
every schedule that is read are active exactly where its entries are if and only if no request
puts such an entry on a node whose row is not active.
-/

namespace Novbot.Schedules

/-! ## Reading a schedule -/

def markRemoved (id nodeId : String) (tables : Tables) : Tables :=
  { tables with
    scheduleNodes := Function.update tables.scheduleNodes id
      ((tables.scheduleNodes id).map fun node state =>
        if node = nodeId ∧ state = .active then .removedByNodeEdit else state) }

def refreshRow (id : String) (tables : Tables) (nodeId : String) : Tables :=
  if (entriesOf (tables.configs nodeId)).any (hasOrigin (originOf id)) then tables
  else markRemoved id nodeId tables

/-- What `get_schedule` does before it reads the view. -/
def refreshRemovedStates (id : String) (tables : Tables) : Tables :=
  (activeIn (tables.scheduleNodes id)).foldl (refreshRow id) tables

/-- A request that is run to its end. -/
inductive Operation where
  | serve (request : Request) (uuid : String)
  | get (id : String)

def Operation.run (tables : Tables) : Operation → Tables
  | .serve request uuid => request.alone uuid tables
  | .get id => refreshRemovedStates id tables

def runAll (operations : List Operation) (tables : Tables) : Tables :=
  operations.foldl Operation.run tables

/-! ## What is said of a schedule -/

/-- The rows of a schedule are active where its entries are, and a patch reaches them all. -/
structure Governed (tables : Tables) (id : String) : Prop where
  rows : ∀ nodeId state, tables.state id nodeId = some state →
    (state = .active ↔ own id (tables.configs nodeId) ≠ [])
  patched : ∀ (body : PatchSchedule) uuid current timing,
    tables.schedules id = some current → body.timing current = .ok timing →
    (applyAll (patchWrites id timing (body.enabled.getD current.enabled)
      (lockedIn tables (activeIn (tables.scheduleNodes id)))) tables).isSome = true →
    ∀ nodeId, tables.state id nodeId ≠ none →
      ∀ entry ∈ own id (((Request.patch id body).alone uuid tables).configs nodeId),
        entry.get "enabled" = some (.bool (body.enabled.getD current.enabled))

/-- The node has a row of the schedule that is not active. -/
def Inactive (tables : Tables) (id nodeId : String) : Prop :=
  ∃ state, tables.state id nodeId = some state ∧ state ≠ .active

/-- The operation puts an entry of a schedule on a node whose row is not active. -/
def Operation.Strays (tables : Tables) : Operation → Prop
  | .serve (.putConfig nodeId _ (some schedules)) _ => tables.nodes nodeId = true ∧
      ∃ id, Inactive tables id nodeId ∧ (parseEntries schedules).any (hasOrigin (originOf id)) = true
  | .serve (.putSchedules nodeId schedules) _ => (tables.configs nodeId).isSome = true ∧
      ∃ id, Inactive tables id nodeId ∧ (parseEntries schedules).any (hasOrigin (originOf id)) = true
  | .serve (.create body) uuid => ∃ timing nodeId, nodeId ∈ body.frozen ∧
      Text.trim body.specId.toList ≠ [] ∧
      validateTiming body.intervalSecs body.cron = .ok timing ∧
      (applyAll (createWrites uuid body timing (lockedIn tables body.frozen)) tables).isSome = true ∧
      hasSpec (entriesOf (tables.configs nodeId)) (createdRow body timing).specId = true ∧
      own uuid (tables.configs nodeId) ≠ []
  | .serve (.reResolve id body) _ => ∃ current nodeId,
      tables.schedules id = some current ∧
      body.stops (diffIds current.nodeIds body.live).1
        (diffIds current.nodeIds body.live).2 = false ∧
      (applyAll (reResolveWrites id body current
        (lockedIn tables (diffIds current.nodeIds body.live).2)
        (lockedIn tables (diffIds current.nodeIds body.live).1)) tables).isSome = true ∧
      nodeId ∈ (diffIds current.nodeIds body.live).1 ∧
      hasSpec (entriesOf (tables.configs nodeId)) current.specId = true ∧
      own id (tables.configs nodeId) ≠ []
  | _ => False

/-- No node has an entry of a schedule whose row there is not active. -/
def NoStrays (tables : Tables) : Prop :=
  ∀ id nodeId, Inactive tables id nodeId → own id (tables.configs nodeId) = []

section
variable {tables tables' : Tables} {id nodeId uuid : String}

theorem any_origin_iff (config : Option Config) :
    (entriesOf config).any (hasOrigin (originOf id)) = true ↔ own id config ≠ [] := by
  rw [own, Ne, List.filter_eq_nil_iff, List.any_eq_true]
  simp

theorem inactive_congr (h : tables'.state id nodeId = tables.state id nodeId) :
    Inactive tables' id nodeId ↔ Inactive tables id nodeId := by
  rw [Inactive, h, Inactive]

/-! ## The refresh -/

theorem state_markRemoved (other node : String) :
    (markRemoved id nodeId tables).state other node =
      if other = id ∧ node = nodeId ∧ tables.state other node = some .active then
        some .removedByNodeEdit
      else tables.state other node := by
  show (Function.update tables.scheduleNodes id _ other).lookup node = _
  by_cases hother : other = id
  · subst hother
    rw [Function.update_self, SortedMap.lookup_map, Tables.state]
    cases (tables.scheduleNodes other).lookup node with
    | none => simp
    | some state => by_cases hnode : node = nodeId <;> simp [hnode, apply_ite some]
  · rw [Function.update_of_ne hother, Tables.state]
    simp [hother]

theorem configs_refreshRow : (refreshRow id tables nodeId).configs = tables.configs := by
  rw [refreshRow]
  split <;> rfl

theorem state_refreshRow (other node : String) :
    (refreshRow id tables nodeId).state other node =
      if other = id ∧ node = nodeId ∧ tables.state other node = some .active ∧
          own id (tables.configs node) = [] then
        some .removedByNodeEdit
      else tables.state other node := by
  rw [refreshRow]
  split
  · next hentry =>
    rw [any_origin_iff] at hentry
    rw [if_neg]
    rintro ⟨-, rfl, -, hnone⟩
    exact hentry hnone
  · next hentry =>
    rw [any_origin_iff, not_not] at hentry
    rw [state_markRemoved]
    by_cases hnode : node = nodeId
    · simp [hnode, hentry]
    · simp [hnode]

/-- A refresh marks the active rows whose node has no entry left. -/
theorem refresh_rows (nodeIds : List String) (tables : Tables) :
    (nodeIds.foldl (refreshRow id) tables).configs = tables.configs ∧
      ∀ other node, (nodeIds.foldl (refreshRow id) tables).state other node =
        if other = id ∧ node ∈ nodeIds ∧ tables.state other node = some .active ∧
            own id (tables.configs node) = [] then
          some .removedByNodeEdit
        else tables.state other node := by
  induction nodeIds generalizing tables with
  | nil => exact ⟨rfl, fun other node => (if_neg fun h => List.not_mem_nil h.2.1).symm⟩
  | cons nodeId nodeIds ih =>
    obtain ⟨hconfigs, hstate⟩ := ih (refreshRow id tables nodeId)
    refine ⟨hconfigs.trans configs_refreshRow, fun other node => ?_⟩
    rw [List.foldl_cons, hstate, configs_refreshRow, state_refreshRow]
    by_cases hnode : other = id ∧ node = nodeId ∧ tables.state other node = some .active ∧
        own id (tables.configs node) = []
    · rw [if_pos hnode, if_neg (by simp), if_pos]
      exact ⟨hnode.1, hnode.2.1 ▸ List.mem_cons_self, hnode.2.2⟩
    · rw [if_neg hnode]
      refine if_congr ?_ rfl rfl
      rw [List.mem_cons]
      constructor
      · exact fun h => ⟨h.1, .inr h.2.1, h.2.2⟩
      · rintro ⟨hother, rfl | hmem, hlast⟩
        · exact absurd ⟨hother, rfl, hlast⟩ hnode
        · exact ⟨hother, hmem, hlast⟩

theorem refresh_configs : (refreshRemovedStates id tables).configs = tables.configs :=
  (refresh_rows _ _).1

theorem refresh_state (other node : String) :
    (refreshRemovedStates id tables).state other node =
      if other = id ∧ tables.state other node = some .active ∧ own id (tables.configs node) = [] then
        some .removedByNodeEdit
      else tables.state other node := by
  refine ((refresh_rows _ _).2 other node).trans (if_congr ?_ rfl rfl)
  constructor
  · exact fun h => ⟨h.1, h.2.2⟩
  · rintro ⟨rfl, hactive, hnone⟩
    exact ⟨rfl, mem_activeIn.mpr hactive, hactive, hnone⟩

end

/-! ## One request -/

section
variable {tables tables' : Tables} {id uuid nodeId : String}

/-- A transaction for a schedule makes no stray of another one. -/
theorem Confined.noStrays {locked : List (String × Option Config)}
    (h : Confined id locked tables tables') (hclean : NoStrays tables) :
    NoStrays tables' ↔
      ∀ nodeId, Inactive tables' id nodeId → own id (tables'.configs nodeId) = [] := by
  constructor
  · exact fun hclean' nodeId => hclean' id nodeId
  · intro hown id' nodeId hinactive
    by_cases hid : id = id'
    · subst hid
      exact hown nodeId hinactive
    · rw [own_congr hid (h.others nodeId)]
      exact hclean id' nodeId ((inactive_congr (h.states id' nodeId hid)).mp hinactive)

theorem inactive_of_state {state : NodeState} (h : tables.state id nodeId = some state) :
    Inactive tables id nodeId ↔ state ≠ .active := by
  constructor
  · rintro ⟨other, hother, hne⟩
    cases h.symm.trans hother
    exact hne
  · exact fun hne => ⟨state, h, hne⟩

theorem not_inactive_of_none (h : tables.state id nodeId = none) : ¬ Inactive tables id nodeId := by
  rintro ⟨state, hstate, -⟩
  cases h.symm.trans hstate

/-- The row of a node that joins is inactive when the node runs the spec already. -/
theorem inactive_joined {spec : Bool}
    (h : tables.state id nodeId = some (if spec then .skippedExists else .active)) :
    Inactive tables id nodeId ↔ spec = true := by
  rw [inactive_of_state h]
  cases spec <;> simp

theorem create_noStrays {body : CreateSchedule} {timing : Timing}
    (htiming : validateTiming body.intervalSecs body.cron = .ok timing)
    (happlied : Applied (createWrites id body timing (lockedIn tables body.frozen)) tables tables')
    (hclean : NoStrays tables) :
    NoStrays tables' ↔ ¬ ∃ nodeId, nodeId ∈ body.frozen ∧
      hasSpec (entriesOf (tables.configs nodeId)) (createdRow body timing).specId = true ∧
      own id (tables.configs nodeId) ≠ [] := by
  have hmap : (lockedIn tables body.frozen).map (·.1) = body.frozen := lockedIn_map _ _
  have hcommits : Commits ⟨some (.create body), none, none, .empty, id, lockedIn tables body.frozen⟩
      (createWrites id body timing (lockedIn tables body.frozen)) := .create rfl htiming hmap
  have hcases := create_cases hcommits.distinct configs_lockedIn happlied
  rw [hmap] at hcases
  rw [(hcommits.confined rfl configs_lockedIn happlied).noStrays hclean]
  constructor
  · rintro hown ⟨nodeId, hmem, hspec, hentry⟩
    obtain ⟨-, hstate, hown'⟩ := (hcases nodeId).resolve_right fun h => h.1 hmem
    rw [hspec, if_pos rfl] at hown'
    have hnone := hown nodeId ((inactive_joined hstate).mpr hspec)
    exact hentry (hown'.symm.trans hnone)
  · intro hnot nodeId hinactive
    rcases hcases nodeId with ⟨hmem, hstate, hown'⟩ | ⟨-, hstate, hown'⟩
    · have hspec := (inactive_joined hstate).mp hinactive
      rw [hown', hspec, if_pos rfl]
      by_contra hentry
      exact hnot ⟨nodeId, hmem, hspec, hentry⟩
    · rw [hown']
      exact hclean id nodeId ((inactive_congr hstate).mp hinactive)

theorem patch_noStrays {body : PatchSchedule} {current : Schedule} {timing : Timing}
    (htiming : body.timing current = .ok timing)
    (happlied : Applied (patchWrites id timing (body.enabled.getD current.enabled)
      (lockedIn tables (activeIn (tables.scheduleNodes id)))) tables tables')
    (hclean : NoStrays tables) : NoStrays tables' := by
  have hcommits : Commits ⟨some (.patch id body), none, some current, tables.scheduleNodes id, "",
      lockedIn tables (activeIn (tables.scheduleNodes id))⟩ _ :=
    .patch rfl rfl htiming (lockedIn_map _ _)
  rw [(hcommits.confined rfl configs_lockedIn happlied).noStrays hclean]
  intro nodeId hinactive
  have hstate := patch_state hcommits.distinct configs_lockedIn happlied nodeId
  have hown := hclean id nodeId ((inactive_congr hstate).mp hinactive)
  rw [patch_own hcommits.distinct configs_lockedIn happlied, hown, List.map_nil, ite_self]

theorem delete_noStrays
    (happlied : Applied (deleteWrites id (lockedIn tables (tables.scheduleNodes id).keys))
      tables tables')
    (hclean : NoStrays tables) : NoStrays tables' := by
  have hcommits : Commits ⟨some (.delete id), none, none, tables.scheduleNodes id, "",
      lockedIn tables (tables.scheduleNodes id).keys⟩ _ := .delete rfl (lockedIn_map _ _)
  rw [(hcommits.confined rfl configs_lockedIn happlied).noStrays hclean]
  intro nodeId hinactive
  exact absurd hinactive (not_inactive_of_none (delete_state happlied nodeId))

theorem reResolve_noStrays {body : ReResolve} {current : Schedule}
    (happlied : Applied (reResolveWrites id body current
      (lockedIn tables (diffIds current.nodeIds body.live).2)
      (lockedIn tables (diffIds current.nodeIds body.live).1)) tables tables')
    (hclean : NoStrays tables) :
    NoStrays tables' ↔ ¬ ∃ nodeId, nodeId ∈ (diffIds current.nodeIds body.live).1 ∧
      hasSpec (entriesOf (tables.configs nodeId)) current.specId = true ∧
      own id (tables.configs nodeId) ≠ [] := by
  have hcommits : Commits ⟨some (.reResolve id body), none, some current, .empty, "",
      lockedIn tables (diffIds current.nodeIds body.live).2 ++
        lockedIn tables (diffIds current.nodeIds body.live).1⟩ _ :=
    .reResolve rfl rfl rfl (lockedIn_map _ _) (lockedIn_map _ _)
  have hlocked : ∀ l ∈ lockedIn tables (diffIds current.nodeIds body.live).2 ++
      lockedIn tables (diffIds current.nodeIds body.live).1, tables.configs l.1 = l.2 := by
    intro l hl
    rcases List.mem_append.mp hl with hl | hl
    · exact configs_lockedIn l hl
    · exact configs_lockedIn l hl
  have hcases := reResolve_cases (lockedIn_map _ _) (lockedIn_map _ _) hlocked happlied
  rw [(hcommits.confined rfl hlocked happlied).noStrays hclean]
  constructor
  · rintro hown ⟨nodeId, hmem, hspec, hentry⟩
    rcases hcases nodeId with ⟨hout, -, -⟩ | ⟨-, hconfig, hstate⟩ | ⟨hnot, -, -⟩
    · exact diffIds_disjoint hmem hout
    · have hnone := hown nodeId ((inactive_joined hstate).mpr hspec)
      rw [hconfig, own_addTo, if_pos hspec] at hnone
      exact hentry hnone
    · exact hnot hmem
  · intro hnot nodeId hinactive
    rcases hcases nodeId with ⟨-, -, hstate⟩ | ⟨hmem, hconfig, hstate⟩ | ⟨-, hconfig, hstate⟩
    · exact absurd hinactive (not_inactive_of_none hstate)
    · have hspec := (inactive_joined hstate).mp hinactive
      rw [hconfig, own_addTo, if_pos hspec]
      by_contra hentry
      exact hnot ⟨nodeId, hmem, hspec, hentry⟩
    · rw [hconfig]
      exact hclean id nodeId ((inactive_congr hstate).mp hinactive)

/-! ## The requests on one config -/

theorem own_update {config : Config} {configs : String → Option Config} (other : String) :
    own id (Function.update configs nodeId (some config) other) =
      if other = nodeId then (parseEntries config.schedules).filter (hasOrigin (originOf id))
      else own id (configs other) := by
  by_cases hother : other = nodeId
  · subst hother
    rw [Function.update_self, if_pos rfl]
    rfl
  · rw [Function.update_of_ne hother, if_neg hother]

theorem filter_ne_nil_iff (schedules : Json) :
    (parseEntries schedules).filter (hasOrigin (originOf id)) ≠ [] ↔
      (parseEntries schedules).any (hasOrigin (originOf id)) = true := by
  rw [Ne, List.filter_eq_nil_iff, List.any_eq_true]
  simp

/-- A config that is replaced leaves every other one clean. -/
theorem noStrays_update {config : Config} (hclean : NoStrays tables)
    (hconfigs : tables'.configs = Function.update tables.configs nodeId (some config))
    (hstate : ∀ id other, Inactive tables' id other →
      Inactive tables id other ∨ (other = nodeId ∧
        (parseEntries config.schedules).any (hasOrigin (originOf id)) = false))
    (hkept : ∀ id other, Inactive tables id other → Inactive tables' id other) :
    NoStrays tables' ↔ ¬ ∃ id, Inactive tables id nodeId ∧
      (parseEntries config.schedules).any (hasOrigin (originOf id)) = true := by
  constructor
  · rintro hclean' ⟨id, hinactive, hentry⟩
    have hnone := hclean' id nodeId (hkept id nodeId hinactive)
    rw [hconfigs, own_update, if_pos rfl] at hnone
    exact (filter_ne_nil_iff _).mpr hentry hnone
  · intro hnot id other hinactive
    rw [hconfigs, own_update]
    split
    · next hother =>
      subst hother
      by_contra hentry
      rw [← Ne, filter_ne_nil_iff] at hentry
      rcases hstate id other hinactive with hbefore | ⟨-, hnone⟩
      · exact hnot ⟨id, hbefore, hentry⟩
      · rw [hnone] at hentry
        cases hentry
    · next hother =>
      rcases hstate id other hinactive with hbefore | ⟨heq, -⟩
      · exact hclean id other hbefore
      · exact absurd heq hother

/-- A config whose entries stay makes no stray. -/
theorem noStrays_congr (hclean : NoStrays tables)
    (hstate : ∀ id other, tables'.state id other = tables.state id other)
    (hown : ∀ id other, own id (tables'.configs other) = own id (tables.configs other)) :
    NoStrays tables' := by
  intro id other hinactive
  rw [hown]
  exact hclean id other ((inactive_congr (hstate id other)).mp hinactive)

theorem putConfig_step (hclean : NoStrays tables) (specs : Json) (schedules : Option Json) :
    NoStrays ((Request.putConfig nodeId specs schedules).alone uuid tables) ↔
      ¬ Operation.Strays tables (.serve (.putConfig nodeId specs schedules) uuid) := by
  rw [alone_putConfig]
  cases hnode : tables.nodes nodeId with
  | false =>
    rw [if_neg Bool.false_ne_true]
    refine iff_of_true hclean ?_
    cases schedules with
    | none => exact id
    | some schedules =>
      rintro ⟨hfound, -⟩
      cases hnode.symm.trans hfound
  | true =>
    rw [if_pos rfl]
    cases schedules with
    | none =>
      refine iff_of_true (noStrays_congr hclean (fun _ _ => rfl) fun id other => ?_) id
      refine (own_update other).trans ?_
      split
      · next hother =>
        subst hother
        rfl
      · rfl
    | some schedules =>
      have hupdated : (tables.bare.upsertConfig nodeId specs schedules true).tables.configs =
          Function.update tables.configs nodeId (some _) := rfl
      refine (noStrays_update hclean hupdated (fun _ _ h => .inl h) fun _ _ h => h).trans ?_
      exact not_congr (and_iff_right hnode).symm

theorem state_noteEdit (schedules : Json) (db : Database) (other : String) :
    (db.noteEdit nodeId schedules).tables.state id other =
      (db.tables.state id other).map fun state =>
        if other = nodeId ∧ state = .active ∧
            (parseEntries schedules).any (hasOrigin (originOf id)) = false then
          .removedByNodeEdit
        else state :=
  SortedMap.lookup_map _ _ _

theorem putSchedules_step (hclean : NoStrays tables) (schedules : Json) :
    NoStrays ((Request.putSchedules nodeId schedules).alone uuid tables) ↔
      ¬ Operation.Strays tables (.serve (.putSchedules nodeId schedules) uuid) := by
  rw [alone_putSchedules]
  cases hconfig : tables.configs nodeId with
  | none =>
    refine iff_of_true hclean ?_
    rintro ⟨hfound, -⟩
    rw [hconfig] at hfound
    cases hfound
  | some config =>
    have hupdated : ((tables.bare.updateSchedules nodeId schedules).2.noteEdit nodeId
        schedules).tables.configs = Function.update tables.configs nodeId
          (some ⟨config.generation + 1, config.specs, schedules⟩) := by
      have hbare : tables.bare.tables.configs nodeId = some config := hconfig
      rw [Database.noteEdit, Database.updateSchedules, hbare]
      rfl
    have hrows : (tables.bare.updateSchedules nodeId schedules).2.tables.scheduleNodes =
        tables.scheduleNodes := by
      rw [Database.updateSchedules]
      split <;> rfl
    have hstate : ∀ id other,
        (tables.bare.updateSchedules nodeId schedules).2.tables.state id other =
          tables.state id other := by
      intro id other
      rw [Tables.state, hrows, Tables.state]
    rw [Option.isSome_some, if_pos rfl]
    refine (noStrays_update hclean hupdated ?_ ?_).trans ?_
    · rintro id other ⟨state, hafter, hne⟩
      rw [state_noteEdit, hstate] at hafter
      obtain ⟨before, hbefore, rfl⟩ := Option.map_eq_some_iff.mp hafter
      split at hne
      · next hnote => exact .inr ⟨hnote.1, hnote.2.2⟩
      · exact .inl ⟨before, hbefore, hne⟩
    · rintro id other ⟨state, hbefore, hne⟩
      refine ⟨state, ?_, hne⟩
      rw [state_noteEdit, hstate, hbefore, Option.map_some, if_neg fun h => hne h.2.1]
    · exact not_congr (and_iff_right (Option.isSome_iff_exists.mpr ⟨config, hconfig⟩)).symm

theorem register_step (hclean : NoStrays tables) :
    NoStrays ((Request.register nodeId).alone uuid tables) := by
  rw [alone_register]
  refine noStrays_congr hclean (fun _ _ => rfl) fun id other => ?_
  refine (own_update other).trans ?_
  split
  · next hother =>
    subst hother
    exact congrArg (List.filter _) (entriesOf_getD (tables.configs other))
  · rfl

end

/-! ## One operation -/

section
variable {tables : Tables} {id uuid : String}

theorem get_noStrays (hclean : NoStrays tables) : NoStrays (refreshRemovedStates id tables) := by
  rintro other node ⟨state, hstate, hne⟩
  rw [refresh_configs]
  rw [refresh_state] at hstate
  split at hstate
  · next hmarked => exact hmarked.1 ▸ hmarked.2.2
  · exact hclean other node ⟨state, hstate, hne⟩

/-- No entry is astray after an operation that puts none astray, and only after such a one. -/
theorem Operation.step (op : Operation) (hclean : NoStrays tables) :
    NoStrays (op.run tables) ↔ ¬ op.Strays tables := by
  cases op with
  | get id => exact iff_of_true (get_noStrays hclean) fun h => h
  | serve request uuid =>
    cases request with
    | putConfig nodeId specs schedules => exact putConfig_step hclean specs schedules
    | putSchedules nodeId schedules => exact putSchedules_step hclean schedules
    | register nodeId => exact iff_of_true (register_step hclean) fun h => h
    | create body =>
      show NoStrays ((Request.create body).alone uuid tables) ↔ _
      by_cases haccepted : (Request.create body).Accepted tables
      · obtain ⟨hspec, timing, htiming⟩ := haccepted
        rw [alone_create hspec htiming]
        rcases committed_cases (createWrites uuid body timing (lockedIn tables body.frozen)) tables
          with ⟨hnone, hsame⟩ | hsome
        · rw [hsame]
          refine iff_of_true hclean ?_
          rintro ⟨timing', nodeId, -, -, htiming', hcommit, -⟩
          cases htiming.symm.trans htiming'
          rw [hnone] at hcommit
          cases hcommit
        · rw [create_noStrays htiming (applied_of_applyAll hsome) hclean]
          refine not_congr ⟨?_, ?_⟩
          · rintro ⟨nodeId, hmem, hrest⟩
            exact ⟨timing, nodeId, hmem, hspec, htiming, by rw [hsome]; rfl, hrest⟩
          · rintro ⟨timing', nodeId, hmem, -, htiming', -, hrest⟩
            cases htiming.symm.trans htiming'
            exact ⟨nodeId, hmem, hrest⟩
      · rw [alone_refused haccepted]
        refine iff_of_true hclean ?_
        rintro ⟨timing, nodeId, -, hspec, htiming, -⟩
        exact haccepted ⟨hspec, timing, htiming⟩
    | patch id body =>
      refine iff_of_true ?_ fun h => h
      show NoStrays ((Request.patch id body).alone uuid tables)
      by_cases haccepted : (Request.patch id body).Accepted tables
      · obtain ⟨current, timing, hcurrent, htiming⟩ := haccepted
        rw [alone_patch hcurrent htiming]
        rcases committed_cases (patchWrites id timing (body.enabled.getD current.enabled)
          (lockedIn tables (activeIn (tables.scheduleNodes id)))) tables with ⟨-, hsame⟩ | hsome
        · rw [hsame]
          exact hclean
        · exact patch_noStrays htiming (applied_of_applyAll hsome) hclean
      · rw [alone_refused haccepted]
        exact hclean
    | delete id =>
      refine iff_of_true ?_ fun h => h
      show NoStrays ((Request.delete id).alone uuid tables)
      by_cases haccepted : (Request.delete id).Accepted tables
      · obtain ⟨current, hcurrent⟩ := haccepted
        rw [alone_delete hcurrent]
        rcases committed_cases (deleteWrites id (lockedIn tables (tables.scheduleNodes id).keys))
          tables with ⟨-, hsame⟩ | hsome
        · rw [hsame]
          exact hclean
        · exact delete_noStrays (applied_of_applyAll hsome) hclean
      · rw [alone_refused haccepted]
        exact hclean
    | reResolve id body =>
      show NoStrays ((Request.reResolve id body).alone uuid tables) ↔ _
      by_cases haccepted : (Request.reResolve id body).Accepted tables
      · obtain ⟨current, hcurrent, hruns⟩ := haccepted
        rw [alone_reResolve hcurrent hruns]
        rcases committed_cases (reResolveWrites id body current
          (lockedIn tables (diffIds current.nodeIds body.live).2)
          (lockedIn tables (diffIds current.nodeIds body.live).1)) tables with ⟨hnone, hsame⟩ | hsome
        · rw [hsame]
          refine iff_of_true hclean ?_
          rintro ⟨current', nodeId, hcurrent', -, hcommit, -⟩
          cases hcurrent.symm.trans hcurrent'
          rw [hnone] at hcommit
          cases hcommit
        · rw [reResolve_noStrays (applied_of_applyAll hsome) hclean]
          refine not_congr ⟨?_, ?_⟩
          · rintro ⟨nodeId, hrest⟩
            exact ⟨current, nodeId, hcurrent, hruns, by rw [hsome]; rfl, hrest⟩
          · rintro ⟨current', nodeId, hcurrent', -, -, hrest⟩
            cases hcurrent.symm.trans hcurrent'
            exact ⟨nodeId, hrest⟩
      · rw [alone_refused haccepted]
        refine iff_of_true hclean ?_
        rintro ⟨current, nodeId, hcurrent, hruns, -⟩
        exact haccepted ⟨current, hcurrent, hruns⟩

end

/-! ## Whole runs -/

section
variable {tables : Tables}

/-- Every schedule governs its entries when it is read if and only if no entry is astray. -/
theorem governed_iff :
    (∀ id, Governed (refreshRemovedStates id tables) id) ↔ NoStrays tables := by
  constructor
  · rintro hgoverned id nodeId ⟨state, hstate, hne⟩
    have hafter : (refreshRemovedStates id tables).state id nodeId = some state := by
      rw [refresh_state, if_neg, hstate]
      rintro ⟨-, hactive, -⟩
      cases hstate.symm.trans hactive
      exact hne rfl
    have hrow := (hgoverned id).rows nodeId state hafter
    rw [refresh_configs] at hrow
    exact not_not.mp fun hentry => hne (hrow.mpr hentry)
  · intro hclean id
    have hinactive : ∀ nodeId, Inactive (refreshRemovedStates id tables) id nodeId →
        own id ((refreshRemovedStates id tables).configs nodeId) = [] :=
      get_noStrays hclean id
    constructor
    · intro nodeId state hstate
      by_cases hactive : state = .active
      · refine iff_of_true hactive fun hnone => ?_
        rw [refresh_configs] at hnone
        rw [refresh_state] at hstate
        split at hstate
        · cases hstate
          cases hactive
        · next hkept => exact hkept ⟨rfl, hactive ▸ hstate, hnone⟩
      · exact iff_of_false hactive (not_not.mpr (hinactive nodeId ⟨state, hstate, hactive⟩))
    · intro body uuid current timing hcurrent htiming hcommit nodeId hrow entry hentry
      obtain ⟨after, hafter⟩ := Option.isSome_iff_exists.mp hcommit
      have hcommits : Commits ⟨some (.patch id body), none, some current,
          (refreshRemovedStates id tables).scheduleNodes id, "",
          lockedIn (refreshRemovedStates id tables)
            (activeIn ((refreshRemovedStates id tables).scheduleNodes id))⟩ _ :=
        .patch rfl rfl htiming (lockedIn_map _ _)
      have happlied := applied_of_applyAll hafter
      have hown := patch_own hcommits.distinct configs_lockedIn happlied nodeId
      rw [alone_patch hcurrent htiming, committed, hafter, Option.getD_some, hown,
        lockedIn_map] at hentry
      split at hentry
      · obtain ⟨before, hbefore, rfl⟩ := List.mem_map.mp hentry
        exact enabled_patchEntry (List.mem_filter.mp hbefore).2
      · next hnot =>
        obtain ⟨state, hstate⟩ := Option.ne_none_iff_exists'.mp hrow
        have hnone := hinactive nodeId ⟨state, hstate, fun hactive =>
          hnot (mem_activeIn.mpr (hactive ▸ hstate))⟩
        rw [hnone] at hentry
        cases hentry

theorem runAll_noStrays (operations : List Operation) (hclean : NoStrays tables) :
    (∀ before, before <+: operations → NoStrays (runAll before tables)) ↔
      ∀ before op, before ++ [op] <+: operations → ¬ op.Strays (runAll before tables) := by
  refine Concurrent.runs_iff (fun _ h => h) ?_ ?_ hclean operations
  · exact fun _ op h hkeeps => (op.step h).mpr hkeeps
  · exact fun _ op h hbad hafter => (op.step h).mp hafter hbad

/-- Of every run of operations from tables without target schedules: the rows of each schedule
that is read are active where its entries are, and a patch reaches every entry, if and only if no
operation puts an entry of a schedule on a node whose row is not active. -/
theorem entries_governed_iff (hstart : ∀ id nodeId, tables.state id nodeId = none)
    (operations : List Operation) :
    (∀ before, before <+: operations → ∀ id,
      Governed (refreshRemovedStates id (runAll before tables)) id) ↔
      ∀ before op, before ++ [op] <+: operations → ¬ op.Strays (runAll before tables) := by
  have hclean : NoStrays tables :=
    fun id nodeId hinactive => absurd hinactive (not_inactive_of_none (hstart id nodeId))
  rw [← runAll_noStrays operations hclean]
  exact forall₂_congr fun before _ => governed_iff

end

/-! ### An entry that is put back -/

def edgeOnly : Tables where
  nodes nodeId := nodeId = "edge"
  configs _ := none
  schedules _ := none
  scheduleNodes _ := .empty

/-- A schedule of one node, an edit that removes its entry and one that puts the entry back. -/
def putBack : List Operation :=
  [.serve (.create ⟨"acme/sweep", some 60, none, true, ["edge"], by simp⟩) "1",
    .serve (.putSchedules "edge" (.arr [])) "",
    .serve (.putSchedules "edge"
      (.arr [scheduleEntry "acme/sweep" ⟨some 60, none⟩ true (originOf "1")])) ""]

theorem entries_governed_iff_putBack :
    (∀ before, before <+: putBack → ∀ id,
      Governed (refreshRemovedStates id (runAll before edgeOnly)) id) ↔
      ∀ before op, before ++ [op] <+: putBack → ¬ op.Strays (runAll before edgeOnly) :=
  entries_governed_iff (fun _ _ => rfl) putBack

theorem putBack_not_governed : ¬ Governed (refreshRemovedStates "1" (runAll putBack edgeOnly)) "1" := by
  intro hgoverned
  have hrow : (refreshRemovedStates "1" (runAll putBack edgeOnly)).state "1" "edge" =
      some .removedByNodeEdit := by decide +kernel
  have hentry : own "1" ((refreshRemovedStates "1" (runAll putBack edgeOnly)).configs "edge") ≠ [] := by
    decide +kernel
  cases (hgoverned.rows "edge" _ hrow).mpr hentry

end Novbot.Schedules
