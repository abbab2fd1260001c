import Novbot.Schedules.Effects

/-!
# Entries and node rows

A target schedule is written twice: as its row with the rows of its nodes, and as an
entry in the config of each active node.  A request reads its view of the schedule before
its transaction, and decides from the view which nodes to rewrite.  The entries of other
origins are safe, since a config is locked before it is read for rewriting.  The two
accounts of the schedule agree as long as what the view says of the nodes it is about
still holds when the transaction commits (`Undisturbed`).
-/

namespace Novbot.Schedules

open Concurrent

/-! ## The accounts of a schedule -/

/-- What the rows say of a node agrees with the entries in its config. -/
def Fits (schedule : Option Schedule) (state : Option NodeState) (own : List Json) : Prop :=
  match schedule, state with
  | some schedule, some .active =>
    ∃ entry, own = [entry] ∧ Says schedule.specId schedule.timing schedule.enabled entry
  | some _, _ => own = []
  | none, state => state = none ∧ own = []

/-- The configs have the entries that the schedules and their node rows say. -/
structure Corresponds (tables : Tables) : Prop where
  exactly : ∀ id nodeId, (∃ entry ∈ entriesOf (tables.configs nodeId), hasOrigin (originOf id) entry) ↔
    ∃ schedule, tables.schedules id = some schedule ∧ tables.state id nodeId = some .active
  once : ∀ id nodeId, (own id (tables.configs nodeId)).length ≤ 1
  current : ∀ id nodeId, ∀ entry ∈ entriesOf (tables.configs nodeId), hasOrigin (originOf id) entry →
    ∀ schedule, tables.schedules id = some schedule →
      Says schedule.specId schedule.timing schedule.enabled entry

theorem fits_active {schedule : Schedule} {entries : List Json} :
    Fits (some schedule) (some .active) entries ↔
      ∃ entry, entries = [entry] ∧
        Says schedule.specId schedule.timing schedule.enabled entry := Iff.rfl

theorem fits_inactive {schedule : Schedule} {state : Option NodeState} {entries : List Json}
    (h : state ≠ some .active) : Fits (some schedule) state entries ↔ entries = [] := by
  cases state with
  | none => exact Iff.rfl
  | some state =>
    cases state with
    | active => exact absurd rfl h
    | skippedExists => exact Iff.rfl
    | removedByNodeEdit => exact Iff.rfl

theorem fits_none {state : Option NodeState} {entries : List Json} :
    Fits none state entries ↔ state = none ∧ entries = [] := Iff.rfl

theorem corresponds_of_fits {tables : Tables}
    (h : ∀ id nodeId, Fits (tables.schedules id) (tables.state id nodeId)
      (own id (tables.configs nodeId))) : Corresponds tables := by
  have hown : ∀ {id nodeId : String} {entry : Json},
      entry ∈ own id (tables.configs nodeId) ↔
        entry ∈ entriesOf (tables.configs nodeId) ∧ hasOrigin (originOf id) entry = true :=
    List.mem_filter
  constructor
  · intro id nodeId
    have hfits := h id nodeId
    cases hschedule : tables.schedules id with
    | none =>
      rw [hschedule, fits_none] at hfits
      constructor
      · rintro ⟨entry, hentry⟩
        have hmem := hown.mpr hentry
        rw [hfits.2] at hmem
        cases hmem
      · rintro ⟨schedule, hsome, -⟩
        cases hsome
    | some schedule =>
      rw [hschedule] at hfits
      by_cases hactive : tables.state id nodeId = some .active
      · rw [hactive, fits_active] at hfits
        obtain ⟨entry, hentry, -⟩ := hfits
        refine iff_of_true ⟨entry, hown.mp ?_⟩ ⟨schedule, rfl, hactive⟩
        rw [hentry]
        exact List.mem_singleton_self entry
      · rw [fits_inactive hactive] at hfits
        constructor
        · rintro ⟨entry, hentry⟩
          have hmem := hown.mpr hentry
          rw [hfits] at hmem
          cases hmem
        · rintro ⟨-, -, hstate⟩
          exact absurd hstate hactive
  · intro id nodeId
    have hfits := h id nodeId
    cases hschedule : tables.schedules id with
    | none =>
      rw [hschedule, fits_none] at hfits
      rw [hfits.2]
      exact Nat.zero_le 1
    | some schedule =>
      rw [hschedule] at hfits
      by_cases hactive : tables.state id nodeId = some .active
      · rw [hactive, fits_active] at hfits
        obtain ⟨entry, hentry, -⟩ := hfits
        rw [hentry]
        exact Nat.le_refl 1
      · rw [fits_inactive hactive] at hfits
        rw [hfits]
        exact Nat.zero_le 1
  · intro id nodeId entry hentry horigin schedule hschedule
    have hmem := hown.mpr ⟨hentry, horigin⟩
    have hfits := h id nodeId
    rw [hschedule] at hfits
    by_cases hactive : tables.state id nodeId = some .active
    · rw [hactive, fits_active] at hfits
      obtain ⟨entry', heq, hcurrent⟩ := hfits
      rw [heq] at hmem
      cases List.mem_singleton.mp hmem
      exact hcurrent
    · rw [fits_inactive hactive] at hfits
      rw [hfits] at hmem
      cases hmem

/-! ## What a request relies on -/

/-- What the transaction of a request relies on when it commits. -/
def Undisturbed (tables : Tables) (loc : Loc) : Prop :=
  match loc.request with
  | some (.create body) =>
    -- A column of signed 64-bit integers holds the interval.
    ∀ nodeId ∈ body.frozen,
      hasSpec (entriesOf (tables.configs nodeId)) (String.ofList (Text.trim body.specId.toList)) ∨
        ∀ interval, body.intervalSecs = some interval → interval < 2 ^ 63
  | some (.patch id body) =>
    ∀ current schedule timing nodeId, loc.schedule = some current → tables.schedules id = some schedule →
      body.timing current = .ok timing → tables.state id nodeId = some .active →
      if nodeId ∈ activeIn loc.nodes then ∀ interval, timing.intervalSecs = some interval → interval < 2 ^ 63
      else (Write.setTiming id timing (body.enabled.getD current.enabled)).schedule id (some schedule) =
        some schedule
  | some (.delete id) =>
    ∀ nodeId, tables.state id nodeId = some .active → nodeId ∈ loc.nodes.keys
  | some (.reResolve id body) =>
    ∀ current schedule, loc.schedule = some current → tables.schedules id = some schedule →
      ∀ nodeId ∈ (diffIds current.nodeIds body.live).1, tables.state id nodeId ≠ some .active ∧
        (hasSpec (entriesOf (tables.configs nodeId)) current.specId ∨
          (schedule.specId = current.specId ∧ schedule.timing = current.timing ∧
            schedule.enabled = current.enabled))
  | _ => True

/-- The moves of requests on target schedules, each undisturbed when it commits. -/
def undisturbed (sys : System) : Move Nat String Event → Prop
  | .act t _ => ∀ writes, sys.about t (.commit writes) → Undisturbed sys.shared.tables (sys.loc t)
  | .event (.start _ request) => request.direct = false
  | .event (.abort _) => True

/-- The schedule that a request is about. -/
def Loc.target (loc : Loc) : Option String :=
  match loc.request with
  | some (.create _) => some loc.drawn
  | some (.patch id _) => some id
  | some (.delete id) => some id
  | some (.reResolve id _) => some id
  | _ => none

/-! ## Timings -/

theorem timing_of_validateTiming {interval : Option Nat} {cron : Option String} {timing : Timing}
    (h : validateTiming interval cron = .ok timing) :
    timing = ⟨interval, trimmed cron⟩ := by
  unfold validateTiming at h
  dsimp only at h
  split at h
  · cases h
  · split at h
    · cases h
    · split at h
      · cases h
      · cases h
        rfl

theorem toU64_asI64 {value : Nat} (h : value < 2 ^ 63) : toU64 (asI64 value) = some value := by
  unfold asI64
  rw [if_pos h, toU64, if_pos (Int.natCast_nonneg value), Int.toNat_natCast]

theorem trimmed_filter (cron : Option String) : (trimmed cron).filter (· ≠ "") = trimmed cron := by
  unfold trimmed
  rw [Option.filter_filter]
  simp

/-- A stored timing reads as it was validated. -/
theorem timing_stored {interval : Option Nat} {cron : Option String} {timing : Timing}
    (h : validateTiming interval cron = .ok timing)
    (hinterval : ∀ value, timing.intervalSecs = some value → value < 2 ^ 63) (schedule : Schedule)
    (enabled : Bool) :
    Schedule.timing { schedule with
      intervalSecs := timing.intervalSecs.map asI64, cron := timing.cron, enabled } = timing := by
  cases timing_of_validateTiming h
  unfold Schedule.timing
  rw [trimmed_filter]
  cases interval with
  | none => rfl
  | some value =>
    rw [Option.map_some, Option.bind_some, toU64_asI64 (hinterval value rfl)]

/-! ## One transaction -/

theorem mem_activeIn {nodes : SortedMap String NodeState} {nodeId : String} :
    nodeId ∈ activeIn nodes ↔ nodes.lookup nodeId = some .active := by
  unfold activeIn
  rw [SortedMap.mem_keys, SortedMap.contains, SortedMap.lookup_filter]
  cases nodes.lookup nodeId with
  | none => simp
  | some state => cases state <;> simp

theorem diffIds_disjoint {expected live : List String} {nodeId : String}
    (hadded : nodeId ∈ (diffIds expected live).1) : nodeId ∉ (diffIds expected live).2 := by
  intro hremoved
  have hlive := (List.mem_filter.mp hadded).1
  have hgone := (List.mem_filter.mp hremoved).2
  simp [hlive] at hgone

section

variable {tables tables' : Tables} {id : String} {locked : List (String × Option Config)}

/-- A config is locked, and its group acts on it, or it is not, and nothing does. -/
theorem groups_cases {group : String × Option Config → List Write}
    (hgroup : ∀ l, ∀ write ∈ group l, write.Within id l.1)
    (hdistinct : (locked.map (·.1)).Nodup) (hlocked : ∀ l ∈ locked, tables.configs l.1 = l.2)
    (nodeId : String) :
    (nodeId ∈ locked.map (·.1) ∧
      configAfter (locked.flatMap group) nodeId (tables.configs nodeId) =
        configAfter (group (nodeId, tables.configs nodeId)) nodeId (tables.configs nodeId) ∧
      ∀ state, stateAfter (locked.flatMap group) id nodeId state =
        stateAfter (group (nodeId, tables.configs nodeId)) id nodeId state) ∨
    (nodeId ∉ locked.map (·.1) ∧
      configAfter (locked.flatMap group) nodeId (tables.configs nodeId) = tables.configs nodeId ∧
      ∀ state, stateAfter (locked.flatMap group) id nodeId state = state) := by
  by_cases h : nodeId ∈ locked.map (·.1)
  · exact .inl ⟨h, configAfter_groups hgroup hdistinct hlocked h,
      fun _ => stateAfter_groups hgroup hdistinct hlocked h⟩
  · exact .inr ⟨h, configAfter_groups_of_not_mem hgroup h _,
      stateAfter_groups_of_not_mem hgroup h⟩

variable (hdistinct : (locked.map (·.1)).Nodup)
  (hlocked : ∀ l ∈ locked, tables.configs l.1 = l.2)

/-! ### Create -/

section

variable {body : CreateSchedule} {timing : Timing}
  (happlied : Applied (createWrites id body timing locked) tables tables')

include hdistinct hlocked happlied

theorem create_others (nodeId : String) :
    others id (tables'.configs nodeId) = others id (tables.configs nodeId) := by
  rw [happlied.config]
  rcases groups_cases (@addTo_within id (createdRow body timing).specId timing body.enabled)
    hdistinct hlocked nodeId with ⟨-, hconfig, -⟩ | ⟨-, hconfig, -⟩
  · exact (congrArg (others id) hconfig).trans (others_addTo _ _ _ _ _ _)
  · exact congrArg (others id) hconfig

/-- A node joins the schedule or is left alone. -/
theorem create_cases (nodeId : String) :
    (nodeId ∈ locked.map (·.1) ∧
      tables'.state id nodeId =
        some (if hasSpec (entriesOf (tables.configs nodeId)) (createdRow body timing).specId then
          .skippedExists else .active) ∧
      own id (tables'.configs nodeId) =
        if hasSpec (entriesOf (tables.configs nodeId)) (createdRow body timing).specId then
          own id (tables.configs nodeId)
        else own id (tables.configs nodeId) ++
          [scheduleEntry (createdRow body timing).specId timing body.enabled (originOf id)]) ∨
    (nodeId ∉ locked.map (·.1) ∧ tables'.state id nodeId = tables.state id nodeId ∧
      own id (tables'.configs nodeId) = own id (tables.configs nodeId)) := by
  rcases groups_cases (@addTo_within id (createdRow body timing).specId timing body.enabled)
    hdistinct hlocked nodeId with ⟨hmem, hconfig, hnode⟩ | ⟨hnot, hconfig, hnode⟩
  · refine .inl ⟨hmem, ?_, ?_⟩
    · exact (happlied.state id nodeId).trans ((hnode _).trans (stateAfter_addTo _ _ _ _ _ _ _))
    · exact (congrArg (own id) ((happlied.config nodeId).trans hconfig)).trans
        (own_addTo _ _ _ _ _ _)
  · exact .inr ⟨hnot, (happlied.state id nodeId).trans (hnode _),
      congrArg (own id) ((happlied.config nodeId).trans hconfig)⟩

theorem create_fits (hnodes : locked.map (·.1) = body.frozen)
    (htiming : validateTiming body.intervalSecs body.cron = .ok timing)
    (hnone : tables.schedules id = none)
    (hrange : ∀ nodeId ∈ body.frozen,
      hasSpec (entriesOf (tables.configs nodeId)) (createdRow body timing).specId ∨
        ∀ interval, body.intervalSecs = some interval → interval < 2 ^ 63)
    {nodeId : String}
    (hfits : Fits (tables.schedules id) (tables.state id nodeId) (own id (tables.configs nodeId))) :
    Fits (tables'.schedules id) (tables'.state id nodeId) (own id (tables'.configs nodeId)) := by
  rw [hnone, fits_none] at hfits
  obtain ⟨hstate, hown⟩ := hfits
  have hgroup := @addTo_within id (createdRow body timing).specId timing body.enabled
  have hschedule : tables'.schedules id = some (createdRow body timing) := by
    rw [happlied.schedule, hnone]
    refine (scheduleAfter_of_within (within_groups hgroup) _).trans ?_
    exact if_pos rfl
  rw [hschedule]
  rcases create_cases hdistinct hlocked happlied nodeId with
    ⟨hmem, hstate', hown'⟩ | ⟨-, hstate', hown'⟩
  · rw [hstate', hown', hown]
    cases hspec : hasSpec (entriesOf (tables.configs nodeId)) (createdRow body timing).specId with
    | true => exact rfl
    | false =>
      rw [if_neg Bool.false_ne_true, if_neg Bool.false_ne_true]
      have hinterval : ∀ value, timing.intervalSecs = some value → value < 2 ^ 63 := by
        cases timing_of_validateTiming htiming
        refine (hrange nodeId (hnodes ▸ hmem)).resolve_left ?_
        rw [hspec]
        exact Bool.false_ne_true
      have hstored : (createdRow body timing).timing = timing :=
        timing_stored htiming hinterval (createdRow body timing) body.enabled
      refine ⟨_, rfl, ?_⟩
      rw [hstored]
      exact says_scheduleEntry _ _ _ _
  · rw [hstate', hown', hstate, hown]
    exact rfl

end

/-! ### Patch -/

section

variable {timing : Timing} {enabled : Bool}
  (happlied : Applied (patchWrites id timing enabled locked) tables tables')

include hdistinct hlocked happlied

theorem patch_others (nodeId : String) :
    others id (tables'.configs nodeId) = others id (tables.configs nodeId) := by
  rw [happlied.config]
  rcases groups_cases (@patchIn_within id timing enabled) hdistinct hlocked nodeId with
    ⟨-, hconfig, -⟩ | ⟨-, hconfig, -⟩
  · exact (congrArg (others id) hconfig).trans (others_patchIn _ _ _ _ _)
  · exact congrArg (others id) hconfig

theorem patch_state (nodeId : String) : tables'.state id nodeId = tables.state id nodeId := by
  rw [happlied.state]
  rcases groups_cases (@patchIn_within id timing enabled) hdistinct hlocked nodeId with
    ⟨-, -, hnode⟩ | ⟨-, -, hnode⟩
  · exact (hnode _).trans (stateAfter_patchIn _ _)
  · exact hnode _

theorem patch_own (nodeId : String) :
    own id (tables'.configs nodeId) =
      if nodeId ∈ locked.map (·.1) then
        (own id (tables.configs nodeId)).map (patchEntry (originOf id) timing enabled)
      else own id (tables.configs nodeId) := by
  rw [happlied.config]
  rcases groups_cases (@patchIn_within id timing enabled) hdistinct hlocked nodeId with
    ⟨hmem, hconfig, -⟩ | ⟨hnot, hconfig, -⟩
  · rw [if_pos hmem]
    exact (congrArg (own id) hconfig).trans (own_patchIn _ _ _ _ _)
  · rw [if_neg hnot]
    exact congrArg (own id) hconfig

theorem patch_fits {interval : Option Nat} {cron : Option String}
    (htiming : validateTiming interval cron = .ok timing) {nodeId : String}
    (hview : ∀ schedule, tables.schedules id = some schedule →
      tables.state id nodeId = some .active →
      if nodeId ∈ locked.map (·.1) then ∀ value, timing.intervalSecs = some value → value < 2 ^ 63
      else (Write.setTiming id timing enabled).schedule id (some schedule) = some schedule)
    (hfits : Fits (tables.schedules id) (tables.state id nodeId) (own id (tables.configs nodeId))) :
    Fits (tables'.schedules id) (tables'.state id nodeId) (own id (tables'.configs nodeId)) := by
  have hgroup := @patchIn_within id timing enabled
  have hschedule : tables'.schedules id =
      (Write.setTiming id timing enabled).schedule id (tables.schedules id) :=
    (happlied.schedule id).trans (scheduleAfter_of_within (within_groups hgroup) _)
  rw [hschedule, patch_state hdistinct hlocked happlied, patch_own hdistinct hlocked happlied]
  cases hrow : tables.schedules id with
  | none =>
    rw [hrow, fits_none] at hfits
    rw [hfits.1, hfits.2, List.map_nil, ite_self, Write.schedule, if_pos rfl, Option.map_none]
    exact ⟨rfl, rfl⟩
  | some schedule =>
    rw [hrow] at hfits
    by_cases hactive : tables.state id nodeId = some .active
    · have hread := hview schedule hrow hactive
      rw [hactive, fits_active] at hfits
      obtain ⟨entry, hentry, hcurrent⟩ := hfits
      rw [hactive, hentry]
      split at hread
      · next hmem =>
        have horigin : hasOrigin (originOf id) entry = true := by
          have hmem : entry ∈ own id (tables.configs nodeId) := by
            rw [hentry]
            exact List.mem_singleton_self entry
          exact (List.mem_filter.mp hmem).2
        rw [if_pos hmem, Write.schedule, if_pos rfl, Option.map_some, fits_active]
        refine ⟨_, rfl, ?_⟩
        rw [timing_stored htiming hread]
        exact says_patchEntry horigin hcurrent.specId
      · next hnot =>
        rw [if_neg hnot, hread]
        exact ⟨entry, rfl, hcurrent⟩
    · rw [fits_inactive hactive] at hfits
      rw [hfits, List.map_nil, ite_self, Write.schedule, if_pos rfl, Option.map_some]
      exact (fits_inactive hactive).mpr rfl

end

/-! ### Delete -/

section

variable (happlied : Applied (deleteWrites id locked) tables tables')

include hdistinct hlocked happlied

theorem delete_config (nodeId : String) :
    tables'.configs nodeId = if nodeId ∈ locked.map (·.1) then
        configAfter (removeFrom id (nodeId, tables.configs nodeId)) nodeId (tables.configs nodeId)
      else tables.configs nodeId := by
  rw [happlied.config, deleteWrites, configAfter_append]
  rcases groups_cases (@removeFrom_within id) hdistinct hlocked nodeId with
    ⟨hmem, hconfig, -⟩ | ⟨hnot, hconfig, -⟩
  · rw [if_pos hmem]
    exact hconfig
  · rw [if_neg hnot]
    exact hconfig

theorem delete_others (nodeId : String) :
    others id (tables'.configs nodeId) = others id (tables.configs nodeId) := by
  rw [delete_config hdistinct hlocked happlied]
  split
  · exact others_removeFrom _ _ _
  · rfl

omit hdistinct hlocked in
theorem delete_state (nodeId : String) : tables'.state id nodeId = none := by
  rw [happlied.state, deleteWrites, stateAfter_append]
  exact if_pos rfl

theorem delete_fits {nodeId : String}
    (hview : tables.state id nodeId = some .active → nodeId ∈ locked.map (·.1))
    (hfits : Fits (tables.schedules id) (tables.state id nodeId) (own id (tables.configs nodeId))) :
    Fits (tables'.schedules id) (tables'.state id nodeId) (own id (tables'.configs nodeId)) := by
  have hschedule : tables'.schedules id = none := by
    rw [happlied.schedule, deleteWrites, scheduleAfter_append]
    exact if_pos rfl
  rw [hschedule, delete_state happlied, fits_none, delete_config hdistinct hlocked happlied]
  refine ⟨rfl, ?_⟩
  split
  · exact own_removeFrom _ _ _
  · next hnot =>
    -- A node that was not in the view has no entry.
    cases hrow : tables.schedules id with
    | none =>
      rw [hrow, fits_none] at hfits
      exact hfits.2
    | some schedule =>
      rw [hrow] at hfits
      exact (fits_inactive fun hactive => hnot (hview hactive)).mp hfits

end

end

/-! ### Re-resolve -/

section

variable {tables tables' : Tables} {id : String} {body : ReResolve} {current : Schedule}
  {dropped joined : List (String × Option Config)}
  (hdropped : dropped.map (·.1) = (diffIds current.nodeIds body.live).2)
  (hjoined : joined.map (·.1) = (diffIds current.nodeIds body.live).1)
  (hlocked : ∀ l ∈ dropped ++ joined, tables.configs l.1 = l.2)
  (happlied : Applied (reResolveWrites id body current dropped joined) tables tables')

include hdropped hjoined hlocked happlied

/-- A node leaves the schedule, joins it or is left alone. -/
theorem reResolve_cases (nodeId : String) :
    (nodeId ∈ (diffIds current.nodeIds body.live).2 ∧
      tables'.configs nodeId =
        configAfter (removeFrom id (nodeId, tables.configs nodeId)) nodeId (tables.configs nodeId) ∧
      tables'.state id nodeId = none) ∨
    (nodeId ∈ (diffIds current.nodeIds body.live).1 ∧
      tables'.configs nodeId =
        configAfter (addTo id current.specId current.timing current.enabled
          (nodeId, tables.configs nodeId)) nodeId (tables.configs nodeId) ∧
      tables'.state id nodeId =
        some (if hasSpec (entriesOf (tables.configs nodeId)) current.specId then .skippedExists
          else .active)) ∨
    (nodeId ∉ (diffIds current.nodeIds body.live).1 ∧
      tables'.configs nodeId = tables.configs nodeId ∧
      tables'.state id nodeId = tables.state id nodeId) := by
  have hout : (dropped.map (·.1)).Nodup := hdropped ▸ current.distinct.filter _
  have hin : (joined.map (·.1)).Nodup := hjoined ▸ body.distinct.filter _
  have hdrop := groups_cases (@dropFrom_within id) hout
    (fun l hl => hlocked l (List.mem_append_left _ hl)) nodeId
  have hadd := groups_cases (@addTo_within id current.specId current.timing current.enabled) hin
    (fun l hl => hlocked l (List.mem_append_right _ hl)) nodeId
  have hconfig : tables'.configs nodeId =
      configAfter (joined.flatMap (addTo id current.specId current.timing current.enabled)) nodeId
        (configAfter (dropped.flatMap (dropFrom id)) nodeId (tables.configs nodeId)) :=
    (happlied.config nodeId).trans (configAfter_append _ _ _ _)
  have hstate : tables'.state id nodeId =
      stateAfter (joined.flatMap (addTo id current.specId current.timing current.enabled)) id nodeId
        (stateAfter (dropped.flatMap (dropFrom id)) id nodeId (tables.state id nodeId)) :=
    (happlied.state id nodeId).trans (stateAfter_append _ _ _ _ _)
  rw [hconfig, hstate]
  rcases hdrop with ⟨hmem, hdropConfig, hdropState⟩ | ⟨-, hdropConfig, hdropState⟩
  · have hnot : nodeId ∉ joined.map (·.1) := by
      rw [hjoined]
      exact fun hadded => diffIds_disjoint hadded (hdropped ▸ hmem)
    refine .inl ⟨hdropped ▸ hmem, ?_, ?_⟩
    · rw [configAfter_groups_of_not_mem addTo_within hnot, hdropConfig]
      exact configAfter_dropFrom _ _
    · rw [stateAfter_groups_of_not_mem addTo_within hnot, hdropState]
      exact stateAfter_dropFrom _ _
  · rw [hdropConfig, hdropState]
    rcases hadd with ⟨hmem, haddConfig, haddState⟩ | ⟨hnot, haddConfig, haddState⟩
    · refine .inr (.inl ⟨hjoined ▸ hmem, haddConfig, ?_⟩)
      exact (haddState _).trans (stateAfter_addTo _ _ _ _ _ _ _)
    · exact .inr (.inr ⟨hjoined ▸ hnot, haddConfig, haddState _⟩)

theorem reResolve_others (nodeId : String) :
    others id (tables'.configs nodeId) = others id (tables.configs nodeId) := by
  rcases reResolve_cases hdropped hjoined hlocked happlied nodeId with
    ⟨-, hconfig, -⟩ | ⟨-, hconfig, -⟩ | ⟨-, hconfig, -⟩
  · rw [hconfig]
    exact others_removeFrom _ _ _
  · rw [hconfig]
    exact others_addTo _ _ _ _ _ _
  · rw [hconfig]

theorem reResolve_schedule :
    tables'.schedules id =
      (Write.setResolution id body.live body.distinct).schedule id (tables.schedules id) := by
  refine (happlied.schedule id).trans ((scheduleAfter_append _ _ _ _).trans ?_)
  rw [scheduleAfter_of_within (within_groups addTo_within),
    scheduleAfter_of_within (within_groups dropFrom_within)]

theorem reResolve_fits {nodeId : String}
    (hview : ∀ schedule, tables.schedules id = some schedule →
      nodeId ∈ (diffIds current.nodeIds body.live).1 → tables.state id nodeId ≠ some .active ∧
        (hasSpec (entriesOf (tables.configs nodeId)) current.specId ∨
          (schedule.specId = current.specId ∧ schedule.timing = current.timing ∧
            schedule.enabled = current.enabled)))
    (hallowed : tables.schedules id = none → (diffIds current.nodeIds body.live).1 = [])
    (hfits : Fits (tables.schedules id) (tables.state id nodeId) (own id (tables.configs nodeId))) :
    Fits (tables'.schedules id) (tables'.state id nodeId) (own id (tables'.configs nodeId)) := by
  rw [reResolve_schedule hdropped hjoined hlocked happlied, Write.schedule, if_pos rfl]
  have hcases := reResolve_cases hdropped hjoined hlocked happlied nodeId
  cases hrow : tables.schedules id with
  | none =>
    rw [hrow, fits_none] at hfits
    rw [Option.map_none, fits_none]
    rcases hcases with ⟨-, hconfig, hstate⟩ | ⟨hadded, -, -⟩ | ⟨-, hconfig, hstate⟩
    · rw [hconfig, hstate]
      exact ⟨rfl, own_removeFrom _ _ _⟩
    · rw [hallowed hrow] at hadded
      cases hadded
    · rw [hconfig, hstate]
      exact hfits
  | some schedule =>
    rw [hrow] at hfits
    rw [Option.map_some]
    rcases hcases with ⟨-, hconfig, hstate⟩ | ⟨hadded, hconfig, hstate⟩ | ⟨-, hconfig, hstate⟩
    · rw [hconfig, hstate]
      exact own_removeFrom _ _ _
    · obtain ⟨hinactive, hread⟩ := hview schedule hrow hadded
      rw [fits_inactive hinactive] at hfits
      rw [hconfig, hstate, own_addTo, hfits]
      cases hspec : hasSpec (entriesOf (tables.configs nodeId)) current.specId with
      | true => exact rfl
      | false =>
        rw [hspec] at hread
        obtain ⟨hsame, htiming, henabled⟩ := hread.resolve_left Bool.false_ne_true
        refine ⟨_, rfl, ?_⟩
        show Says schedule.specId schedule.timing schedule.enabled _
        rw [hsame, htiming, henabled]
        exact says_scheduleEntry _ _ _ _
    · rw [hconfig, hstate]
      cases hstate' : tables.state id nodeId with
      | none =>
        rw [hstate'] at hfits
        exact hfits
      | some state =>
        rw [hstate'] at hfits
        cases state with
        | active => exact hfits
        | skippedExists => exact hfits
        | removedByNodeEdit => exact hfits

end

end Novbot.Schedules
