import Novbot.Schedules.Runs

/-!
# Requests that run alone

A request that no other one runs beside: its program, operation by operation, on a database
without locks.  One on a target schedule is refused and leaves the tables as they are
(`alone_refused`), or it commits its writes with the configs as it locked them (`alone_cases`).
-/

namespace Novbot.Schedules

open Concurrent

/-! ## Running alone -/

/-- Nothing is locked. -/
def Tables.bare (tables : Tables) : Database :=
  ⟨tables, fun _ => none, fun _ => ⟨.arr [], .arr []⟩⟩

/-- The reply to an operation and the tables that it leaves. -/
def Op.alone (op : Op) (uuid : String) (tables : Tables) : Option (op.Reply × Tables) :=
  (exec 0 op uuid tables.bare).map fun done => (done.1, done.2.tables)

def runAlone {α : Type} (uuid : String) : Prog α → Tables → Option (α × Tables)
  | .done result, tables => some (result, tables)
  | .perform op next, tables =>
    (op.alone uuid tables).bind fun done => runAlone uuid (next done.1) done.2

/-- The tables after a request that runs alone. -/
def Request.alone (request : Request) (uuid : String) (tables : Tables) : Tables :=
  ((runAlone uuid request.prog tables).map (·.2)).getD tables

/-- What is committed, unless the keys forbid it. -/
def committed (writes : List Write) (tables : Tables) : Tables :=
  (applyAll writes tables).getD tables

/-- The configs as `lock_config` gives them. -/
def lockedIn (tables : Tables) (nodeIds : List String) : List (String × Option Config) :=
  nodeIds.map fun nodeId => (nodeId, tables.configs nodeId)

section
variable {α β : Type} {uuid : String} {tables : Tables}

theorem runAlone_bind (prog : Prog α) (next : α → Prog β) :
    runAlone uuid (prog >>= next) tables =
      (runAlone uuid prog tables).bind fun done => runAlone uuid (next done.1) done.2 := by
  induction prog generalizing tables with
  | done result => rfl
  | perform op rest ih =>
    rw [Program.perform_bind, runAlone, runAlone, Option.bind_assoc]
    exact congrArg _ (funext fun done => ih done.1)

theorem runAlone_call (op : Op) (next : op.Reply → Prog β) :
    runAlone uuid (call op >>= next) tables =
      (op.alone uuid tables).bind fun done => runAlone uuid (next done.1) done.2 := rfl

theorem runAlone_lockConfigs (nodeIds : List String) :
    runAlone uuid (lockConfigs nodeIds) tables = some (lockedIn tables nodeIds, tables) := by
  induction nodeIds with
  | nil => rfl
  | cons nodeId nodeIds ih =>
    rw [lockConfigs, runAlone_call]
    show runAlone uuid (lockConfigs nodeIds >>= _) tables = _
    rw [runAlone_bind, ih]
    rfl

theorem runAlone_commit (writes : List Write) :
    runAlone uuid (do let _ ← call (.commit writes)) tables =
      some ((), committed writes tables) := by
  have hbare : applyAll writes tables.bare.tables = applyAll writes tables := rfl
  have hcommit : ((Op.commit writes).alone uuid tables).map (·.2) =
      some (committed writes tables) := by
    rw [Op.alone, exec, Option.map_some, Database.commit, committed, hbare]
    cases applyAll writes tables <;> rfl
  obtain ⟨done, hdone, htables⟩ := Option.map_eq_some_iff.mp hcommit
  rw [runAlone_call, hdone, ← htables]
  rfl

/-- An operation that changes nothing gives a reply. -/
theorem runAlone_read {op : Op} {next : op.Reply → Prog β} {reply : op.Reply}
    (h : op.alone uuid tables = some (reply, tables)) :
    runAlone uuid (call op >>= next) tables = runAlone uuid (next reply) tables := by
  rw [runAlone_call, h, Option.bind_some]

theorem lockSchedule_alone (id : String) :
    (Op.lockSchedule id).alone uuid tables = some ((), tables) := by
  rw [Op.alone, exec]
  split <;> rfl

theorem newUuid_alone : Op.newUuid.alone uuid tables = some (uuid, tables) := rfl

theorem readNodes_alone (id : String) :
    (Op.readNodes id).alone uuid tables = some (tables.scheduleNodes id, tables) := rfl

theorem readSchedule_alone {id : String} {schedule : Option Schedule}
    (h : tables.schedules id = schedule) :
    (Op.readSchedule id).alone uuid tables = some (schedule, tables) := by
  rw [← h]
  rfl

end

/-! ## The requests -/

section
variable {uuid : String} {tables : Tables}

theorem alone_putConfig (nodeId : String) (specs : Json) (schedules : Option Json) :
    (Request.putConfig nodeId specs schedules).alone uuid tables =
      if tables.nodes nodeId then
        (tables.bare.upsertConfig nodeId specs
          (schedules.getD (schedulesOf (tables.configs nodeId))) schedules.isSome).tables
      else tables := by
  have hexists : (Op.nodeExists nodeId).alone uuid tables = some (tables.nodes nodeId, tables) := rfl
  rw [Request.alone, Request.prog]
  unfold putConfig
  rw [runAlone_call, hexists]
  cases tables.nodes nodeId with
  | false => rfl
  | true => cases schedules <;> rfl

theorem alone_putSchedules (nodeId : String) (schedules : Json) :
    (Request.putSchedules nodeId schedules).alone uuid tables =
      if (tables.configs nodeId).isSome then
        ((tables.bare.updateSchedules nodeId schedules).2.noteEdit nodeId schedules).tables
      else tables := by
  have hupdate : (Op.updateSchedules nodeId schedules).alone uuid tables =
      some ((tables.bare.updateSchedules nodeId schedules).1,
        (tables.bare.updateSchedules nodeId schedules).2.tables) := rfl
  rw [Request.alone, Request.prog]
  unfold putSchedules
  rw [runAlone_call, hupdate, Database.updateSchedules]
  cases hconfig : tables.configs nodeId with
  | none =>
    have hbare : tables.bare.tables.configs nodeId = none := hconfig
    rw [hbare]
    rfl
  | some config =>
    have hbare : tables.bare.tables.configs nodeId = some config := hconfig
    rw [hbare]
    rfl

theorem alone_register (nodeId : String) :
    (Request.register nodeId).alone uuid tables = (tables.bare.registerNode nodeId).tables := rfl

theorem alone_of_run {request : Request} {after : Tables}
    (h : runAlone uuid request.prog tables = some ((), after)) :
    request.alone uuid tables = after := by
  rw [Request.alone, h]
  rfl

theorem alone_create {body : CreateSchedule} {timing : Timing}
    (hspec : Text.trim body.specId.toList ≠ [])
    (htiming : validateTiming body.intervalSecs body.cron = .ok timing) :
    (Request.create body).alone uuid tables =
      committed (createWrites uuid body timing (lockedIn tables body.frozen)) tables := by
  refine alone_of_run ?_
  rw [Request.prog, createSchedule, if_neg hspec, htiming]
  dsimp only
  rw [runAlone_read newUuid_alone, runAlone_bind, runAlone_lockConfigs, Option.bind_some,
    runAlone_commit]

theorem alone_patch {id : String} {body : PatchSchedule} {current : Schedule} {timing : Timing}
    (hcurrent : tables.schedules id = some current) (htiming : body.timing current = .ok timing) :
    (Request.patch id body).alone uuid tables =
      committed (patchWrites id timing (body.enabled.getD current.enabled)
        (lockedIn tables (activeIn (tables.scheduleNodes id)))) tables := by
  refine alone_of_run ?_
  rw [Request.prog, patchSchedule, runAlone_read (readSchedule_alone hcurrent)]
  dsimp only
  rw [runAlone_read (readNodes_alone id), htiming]
  dsimp only
  rw [runAlone_read (lockSchedule_alone id), runAlone_bind, runAlone_lockConfigs,
    Option.bind_some, runAlone_commit]

theorem alone_delete {id : String} {current : Schedule}
    (hcurrent : tables.schedules id = some current) :
    (Request.delete id).alone uuid tables =
      committed (deleteWrites id (lockedIn tables (tables.scheduleNodes id).keys)) tables := by
  refine alone_of_run ?_
  rw [Request.prog, deleteSchedule, runAlone_read (readSchedule_alone hcurrent)]
  dsimp only
  rw [runAlone_read (readNodes_alone id), runAlone_bind, runAlone_lockConfigs,
    Option.bind_some, runAlone_read (lockSchedule_alone id), runAlone_commit]

theorem alone_reResolve {id : String} {body : ReResolve} {current : Schedule}
    (hcurrent : tables.schedules id = some current)
    (hruns : body.stops (diffIds current.nodeIds body.live).1
      (diffIds current.nodeIds body.live).2 = false) :
    (Request.reResolve id body).alone uuid tables =
      committed (reResolveWrites id body current
        (lockedIn tables (diffIds current.nodeIds body.live).2)
        (lockedIn tables (diffIds current.nodeIds body.live).1)) tables := by
  have htarget : (Op.readTarget id).alone uuid tables = some (true, tables) := by
    have hread : (Op.readTarget id).alone uuid tables =
        some ((tables.schedules id).isSome, tables) := rfl
    rw [hread, hcurrent]
    rfl
  refine alone_of_run ?_
  rw [Request.prog, reResolveSchedule, runAlone_read (readSchedule_alone hcurrent)]
  dsimp only
  rw [runAlone_read (readNodes_alone id), runAlone_read htarget, if_pos rfl,
    hruns, if_neg Bool.false_ne_true, runAlone_read (lockSchedule_alone id), runAlone_bind,
    runAlone_lockConfigs, Option.bind_some, runAlone_bind, runAlone_lockConfigs,
    Option.bind_some, runAlone_commit]

/-! ## What a request does -/

theorem committed_cases (writes : List Write) (tables : Tables) :
    (applyAll writes tables = none ∧ committed writes tables = tables) ∨
      applyAll writes tables = some (committed writes tables) := by
  rw [committed]
  cases applyAll writes tables with
  | none => exact .inl ⟨rfl, rfl⟩
  | some after => exact .inr rfl

theorem lockedIn_map (tables : Tables) (nodeIds : List String) :
    (lockedIn tables nodeIds).map (·.1) = nodeIds := by
  rw [lockedIn, List.map_map]
  exact List.map_id _

theorem configs_lockedIn {tables : Tables} {nodeIds : List String} :
    ∀ l ∈ lockedIn tables nodeIds, tables.configs l.1 = l.2 := by
  intro l hl
  obtain ⟨nodeId, -, rfl⟩ := List.mem_map.mp hl
  rfl

/-- The request is not refused before its transaction. -/
def Request.Accepted (tables : Tables) : Request → Prop
  | .create body => Text.trim body.specId.toList ≠ [] ∧
      ∃ timing, validateTiming body.intervalSecs body.cron = .ok timing
  | .patch id body => ∃ current timing, tables.schedules id = some current ∧
      body.timing current = .ok timing
  | .delete id => ∃ current, tables.schedules id = some current
  | .reResolve id body => ∃ current, tables.schedules id = some current ∧
      body.stops (diffIds current.nodeIds body.live).1 (diffIds current.nodeIds body.live).2 = false
  | _ => True

/-- A request that is refused changes nothing. -/
theorem alone_refused {request : Request} (h : ¬ request.Accepted tables) :
    request.alone uuid tables = tables := by
  refine alone_of_run ?_
  cases request with
  | putConfig _ _ _ => exact absurd trivial h
  | putSchedules _ _ => exact absurd trivial h
  | register _ => exact absurd trivial h
  | create body =>
    rw [Request.prog, createSchedule]
    split
    · rfl
    · next hspec =>
      cases htiming : validateTiming body.intervalSecs body.cron with
      | error _ => rfl
      | ok timing => exact absurd ⟨hspec, timing, htiming⟩ h
  | patch id body =>
    rw [Request.prog, patchSchedule]
    cases hcurrent : tables.schedules id with
    | none => rw [runAlone_read (readSchedule_alone hcurrent)]; rfl
    | some current =>
      rw [runAlone_read (readSchedule_alone hcurrent)]
      dsimp only
      rw [runAlone_read (readNodes_alone id)]
      cases htiming : body.timing current with
      | error _ => rfl
      | ok timing => exact absurd ⟨current, timing, hcurrent, htiming⟩ h
  | delete id =>
    rw [Request.prog, deleteSchedule]
    cases hcurrent : tables.schedules id with
    | none => rw [runAlone_read (readSchedule_alone hcurrent)]; rfl
    | some current => exact absurd ⟨current, hcurrent⟩ h
  | reResolve id body =>
    rw [Request.prog, reResolveSchedule]
    cases hcurrent : tables.schedules id with
    | none => rw [runAlone_read (readSchedule_alone hcurrent)]; rfl
    | some current =>
      cases hstops : body.stops (diffIds current.nodeIds body.live).1
          (diffIds current.nodeIds body.live).2 with
      | false => exact absurd ⟨current, hcurrent, hstops⟩ h
      | true =>
        have htarget : (Op.readTarget id).alone uuid tables =
            some ((tables.schedules id).isSome, tables) := rfl
        rw [hcurrent] at htarget
        rw [runAlone_read (readSchedule_alone hcurrent)]
        dsimp only
        rw [runAlone_read (readNodes_alone id), runAlone_read htarget]
        simp only [Option.isSome_some, if_true, hstops]
        rfl

/-- A request on a target schedule leaves the tables as they are or commits its writes. -/
theorem alone_cases {request : Request} (hdirect : request.direct = false) :
    request.alone uuid tables = tables ∨ ∃ loc writes, loc.request = some request ∧
      loc.drawn = uuid ∧ Commits loc writes ∧ (∀ l ∈ loc.locked, tables.configs l.1 = l.2) ∧
      applyAll writes tables = some (request.alone uuid tables) := by
  by_cases haccepted : request.Accepted tables
  · cases request with
    | putConfig _ _ _ => cases hdirect
    | putSchedules _ _ => cases hdirect
    | register _ => cases hdirect
    | create body =>
      obtain ⟨hspec, timing, htiming⟩ := haccepted
      rw [alone_create hspec htiming]
      refine (committed_cases _ tables).imp And.right fun hsome => ?_
      exact ⟨⟨_, none, none, .empty, uuid, lockedIn tables body.frozen⟩, _, rfl, rfl,
        .create rfl htiming (lockedIn_map _ _), configs_lockedIn, hsome⟩
    | patch id body =>
      obtain ⟨current, timing, hcurrent, htiming⟩ := haccepted
      rw [alone_patch hcurrent htiming]
      refine (committed_cases _ tables).imp And.right fun hsome => ?_
      exact ⟨⟨_, none, some current, tables.scheduleNodes id, uuid,
        lockedIn tables (activeIn (tables.scheduleNodes id))⟩, _, rfl, rfl,
        .patch rfl rfl htiming (lockedIn_map _ _), configs_lockedIn, hsome⟩
    | delete id =>
      obtain ⟨current, hcurrent⟩ := haccepted
      rw [alone_delete hcurrent]
      refine (committed_cases _ tables).imp And.right fun hsome => ?_
      exact ⟨⟨_, none, none, tables.scheduleNodes id, uuid,
        lockedIn tables (tables.scheduleNodes id).keys⟩, _, rfl, rfl,
        .delete rfl (lockedIn_map _ _), configs_lockedIn, hsome⟩
    | reResolve id body =>
      obtain ⟨current, hcurrent, hruns⟩ := haccepted
      rw [alone_reResolve hcurrent hruns]
      refine (committed_cases _ tables).imp And.right fun hsome => ?_
      refine ⟨⟨_, none, some current, .empty, uuid,
        lockedIn tables (diffIds current.nodeIds body.live).2 ++
          lockedIn tables (diffIds current.nodeIds body.live).1⟩, _, rfl, rfl,
        .reResolve rfl rfl rfl (lockedIn_map _ _) (lockedIn_map _ _), ?_, hsome⟩
      intro l hl
      exact (List.mem_append.mp hl).elim (configs_lockedIn l) (configs_lockedIn l)
  · exact .inl (alone_refused haccepted)

end

end Novbot.Schedules
