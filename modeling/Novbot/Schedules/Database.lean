import Novbot.Lib.Machine
import Novbot.Schedules.Requests

/-!
# Requests on one database

The machine on which requests run: a thread for each request, and the committed tables
with the row locks of open transactions.  Reads that lock nothing see what is committed.
A statement waits for the lock of another transaction, and a transaction may fail at any
point.

The database also remembers, for each node, the specs and the schedules that were last
committed by a writer that supplies them.  No operation reads them.
-/

namespace Novbot.Schedules

open Concurrent

/-- A row that a transaction locks. -/
inductive Key where
  | config (nodeId : String)
  | schedule (id : String)
  deriving DecidableEq, Repr

/-- What writers supplied last for a node. -/
structure Supplied where
  specs : Json
  schedules : Json

structure Database where
  tables : Tables
  holder : Key → Option Nat
  supplied : String → Supplied

/-- The history of a thread. -/
structure Loc where
  request : Option Request
  /-- What `get_config` gave. -/
  config : Option Config
  /-- The view of the schedule. -/
  schedule : Option Schedule
  nodes : SortedMap String NodeState
  /-- The id of a new schedule. -/
  drawn : String
  /-- What `lock_config` gave, in order. -/
  locked : List (String × Option Config)

def Loc.fresh (request : Option Request) : Loc := ⟨request, none, none, .empty, "", []⟩

/-! ## Operations -/

def Database.free (db : Database) (t : Nat) (key : Key) : Bool :=
  (db.holder key).all (· == t)

def Database.lock (db : Database) (t : Nat) (key : Key) : Database :=
  { db with holder := Function.update db.holder key (some t) }

def Database.release (db : Database) (t : Nat) : Database :=
  { db with holder := fun key => if db.holder key = some t then none else db.holder key }

def Database.setConfig (db : Database) (nodeId : String) (config : Config) : Database :=
  { db with tables := { db.tables with
      configs := Function.update db.tables.configs nodeId (some config) } }

/-- The upsert counts the generation up. -/
def Database.upsertConfig (db : Database) (nodeId : String) (specs schedules : Json)
    (supplied : Bool) : Database :=
  let generation := ((db.tables.configs nodeId).map (·.generation + 1)).getD 1
  { db.setConfig nodeId ⟨generation, specs, schedules⟩ with
    supplied := Function.update db.supplied nodeId
      ⟨specs, if supplied then schedules else (db.supplied nodeId).schedules⟩ }

def Database.updateSchedules (db : Database) (nodeId : String) (schedules : Json) :
    Bool × Database :=
  match db.tables.configs nodeId with
  | none => (false, db)
  | some config =>
    (true, { db.setConfig nodeId ⟨config.generation + 1, config.specs, schedules⟩ with
      supplied := Function.update db.supplied nodeId ⟨(db.supplied nodeId).specs, schedules⟩ })

/-- The active node rows of schedules that have no entry left. -/
def Database.noteEdit (db : Database) (nodeId : String) (schedules : Json) : Database :=
  { db with tables := { db.tables with
      scheduleNodes := fun id => (db.tables.scheduleNodes id).map fun node state =>
        if node = nodeId ∧ state = .active ∧
            (parseEntries schedules).any (hasOrigin (originOf id)) = false then
          .removedByNodeEdit
        else state } }

def Database.registerNode (db : Database) (nodeId : String) : Database :=
  { db with tables := { db.tables with
      nodes := Function.update db.tables.nodes nodeId true
      configs := Function.update db.tables.configs nodeId
        (some ((db.tables.configs nodeId).getD .initial)) } }

def Write.sets (write : Write) (nodeId : String) : Bool :=
  match write with
  | .setSchedules other _ => other = nodeId
  | _ => false

def Database.commit (db : Database) (t : Nat) (writes : List Write) : Bool × Database :=
  match applyAll writes db.tables with
  | none => (false, db.release t)
  | some tables =>
    (true, ⟨tables, (db.release t).holder, fun nodeId =>
      if writes.any (·.sets nodeId) && (tables.configs nodeId).isSome then
        ⟨(db.supplied nodeId).specs, schedulesOf (tables.configs nodeId)⟩
      else db.supplied nodeId⟩)

/-- The reply and the database after an operation, or nothing when it waits for a lock. -/
def exec (t : Nat) : (op : Op) → String → Database → Option (op.Reply × Database)
  | .nodeExists nodeId, _, db => some (db.tables.nodes nodeId, db)
  | .readConfig nodeId, _, db => some (db.tables.configs nodeId, db)
  | .upsertConfig nodeId specs schedules supplied, _, db =>
    if db.free t (.config nodeId) then
      some ((), db.upsertConfig nodeId specs schedules supplied)
    else none
  | .updateSchedules nodeId schedules, _, db =>
    if db.free t (.config nodeId) then some (db.updateSchedules nodeId schedules) else none
  | .noteEdit nodeId schedules, _, db => some ((), db.noteEdit nodeId schedules)
  | .registerNode nodeId, _, db =>
    if db.free t (.config nodeId) then some ((), db.registerNode nodeId) else none
  | .readSchedule id, _, db => some (db.tables.schedules id, db)
  | .readNodes id, _, db => some (db.tables.scheduleNodes id, db)
  | .readTarget id, _, db => some ((db.tables.schedules id).isSome, db)
  | .newUuid, uuid, db => some (uuid, db)
  | .lockSchedule id, _, db =>
    if (db.tables.schedules id).isNone then some ((), db)
    else if db.free t (.schedule id) then some ((), db.lock t (.schedule id))
    else none
  | .lockConfig nodeId, _, db =>
    if db.free t (.config nodeId) then
      some (db.tables.configs nodeId, db.lock t (.config nodeId))
    else none
  | .commit writes, _, db => some (db.commit t writes)

def note (op : Op) (reply : op.Reply) (loc : Loc) : Loc :=
  match op, reply with
  | .readConfig _, config => { loc with config }
  | .readSchedule _, schedule => { loc with schedule }
  | .readNodes _, nodes => { loc with nodes }
  | .newUuid, drawn => { loc with drawn }
  | .lockConfig nodeId, config => { loc with locked := loc.locked ++ [(nodeId, config)] }
  | .commit _, _ => { loc with locked := [] }
  | _, _ => loc

inductive Event where
  | start (t : Nat) (request : Request)
  /-- The request fails, or the center closes its connection. -/
  | abort (t : Nat)

abbrev System := Sys Op.Reply Nat Loc Database

def fire : Event → System → Option System
  | .start t request, sys =>
    if sys.idle t then
      some ⟨sys.shared, Function.update sys.threads t ⟨request.prog, .fresh (some request)⟩⟩
    else none
  | .abort t, sys =>
    some ⟨sys.shared.release t, Function.update sys.threads t ⟨.done (), .fresh none⟩⟩

def center : Machine Op.Reply Nat Loc Database String Event where
  exec t _ op uuid db := exec t op uuid db
  note _ op reply loc := note op reply loc
  fire := fire

/-- Nothing runs and nothing is locked. -/
def initial (tables : Tables) : System where
  shared := ⟨tables, fun _ => none, fun nodeId =>
    ⟨((tables.configs nodeId).map (·.specs)).getD (.arr []), schedulesOf (tables.configs nodeId)⟩⟩
  threads _ := ⟨.done (), .fresh none⟩

/-! ## What a request commits -/

/-- The writes that the transaction of a request commits, from what it read. -/
inductive Commits (loc : Loc) : List Write → Prop where
  | create {body : CreateSchedule} {timing : Timing} :
    loc.request = some (.create body) →
    validateTiming body.intervalSecs body.cron = .ok timing →
    loc.locked.map (·.1) = body.frozen →
    Commits loc (createWrites loc.drawn body timing loc.locked)
  | patch {id : String} {body : PatchSchedule} {current : Schedule} {timing : Timing} :
    loc.request = some (.patch id body) →
    loc.schedule = some current →
    body.timing current = .ok timing →
    loc.locked.map (·.1) = activeIn loc.nodes →
    Commits loc (patchWrites id timing (body.enabled.getD current.enabled) loc.locked)
  | delete {id : String} :
    loc.request = some (.delete id) →
    loc.locked.map (·.1) = loc.nodes.keys →
    Commits loc (deleteWrites id loc.locked)
  | reResolve {id : String} {body : ReResolve} {current : Schedule}
    {dropped joined : List (String × Option Config)} :
    loc.request = some (.reResolve id body) →
    loc.schedule = some current →
    loc.locked = dropped ++ joined →
    dropped.map (·.1) = (diffIds current.nodeIds body.live).2 →
    joined.map (·.1) = (diffIds current.nodeIds body.live).1 →
    Commits loc (reResolveWrites id body current dropped joined)

/-- The request writes a config outside a transaction. -/
def Request.direct : Request → Bool
  | .putConfig _ _ _ => true
  | .putSchedules _ _ => true
  | .register _ => true
  | _ => false

def mayPerform (op : Op) (loc : Loc) : Prop :=
  match op with
  | .upsertConfig _ _ schedules supplied =>
    (∃ request, loc.request = some request ∧ request.direct = true) ∧
      (supplied = false → schedules = schedulesOf loc.config)
  | .updateSchedules _ _ => ∃ request, loc.request = some request ∧ request.direct = true
  | .noteEdit _ _ => ∃ request, loc.request = some request ∧ request.direct = true
  | .registerNode _ => ∃ request, loc.request = some request ∧ request.direct = true
  | .commit writes => Commits loc writes
  | _ => True

def terms : Machine.Terms Op.Reply Nat Loc where
  pre _ op loc := mayPerform op loc
  gives _ _ _ _ := True
  rest _ loc := loc.locked = []

abbrev meets {α : Type} (prog : Prog α) (post : α → Loc → Prop) (loc : Loc) : Prop :=
  prog.Meets ⟨mayPerform, fun _ _ _ => True, note⟩ post loc

theorem lockConfigs_meets (nodeIds : List String) (loc : Loc) :
    meets (lockConfigs nodeIds)
      (fun locked loc' => locked.map (·.1) = nodeIds ∧
        loc' = { loc with locked := loc.locked ++ locked }) loc := by
  induction nodeIds generalizing loc with
  | nil => exact ⟨rfl, by simp⟩
  | cons nodeId rest ih =>
    refine ⟨trivial, fun config _ => (ih _).bind ?_⟩
    rintro locked loc' ⟨hlocked, rfl⟩
    exact ⟨by rw [List.map_cons, hlocked], by simp [note]⟩

theorem createSchedule_meets (body : CreateSchedule) :
    meets (createSchedule body) (fun _ loc => loc.locked = []) (.fresh (some (.create body))) := by
  unfold createSchedule
  split
  · exact rfl
  · split
    · exact rfl
    · next timing htiming =>
      refine ⟨trivial, fun id _ => (lockConfigs_meets body.frozen _).bind ?_⟩
      rintro locked loc ⟨hlocked, rfl⟩
      exact ⟨.create rfl htiming hlocked, fun _ _ => rfl⟩

theorem patchSchedule_meets (id : String) (body : PatchSchedule) :
    meets (patchSchedule id body) (fun _ loc => loc.locked = [])
      (.fresh (some (.patch id body))) := by
  refine ⟨trivial, fun schedule _ => ?_⟩
  cases schedule with
  | none => exact rfl
  | some current =>
    refine ⟨trivial, fun nodes _ => ?_⟩
    split
    · exact rfl
    · next timing htiming =>
      refine ⟨trivial, fun _ _ => (lockConfigs_meets (activeIn nodes) _).bind ?_⟩
      rintro locked loc ⟨hlocked, rfl⟩
      exact ⟨.patch rfl rfl htiming hlocked, fun _ _ => rfl⟩

theorem deleteSchedule_meets (id : String) :
    meets (deleteSchedule id) (fun _ loc => loc.locked = []) (.fresh (some (.delete id))) := by
  refine ⟨trivial, fun schedule _ => ?_⟩
  cases schedule with
  | none => exact rfl
  | some current =>
    refine ⟨trivial, fun nodes _ => (lockConfigs_meets nodes.keys _).bind ?_⟩
    rintro locked loc ⟨hlocked, rfl⟩
    exact ⟨trivial, fun _ _ => ⟨.delete rfl hlocked, fun _ _ => rfl⟩⟩

theorem reResolveSchedule_meets (id : String) (body : ReResolve) :
    meets (reResolveSchedule id body) (fun _ loc => loc.locked = [])
      (.fresh (some (.reResolve id body))) := by
  refine ⟨trivial, fun schedule _ => ?_⟩
  cases schedule with
  | none => exact rfl
  | some current =>
    refine ⟨trivial, fun nodes _ => ⟨trivial, fun found _ => ?_⟩⟩
    cases found with
    | false => exact rfl
    | true =>
      dsimp only
      split
      · exact rfl
      · refine ⟨trivial, fun _ _ => (lockConfigs_meets _ _).bind ?_⟩
        rintro dropped loc ⟨hdropped, rfl⟩
        refine (lockConfigs_meets _ _).bind ?_
        rintro joined loc ⟨hjoined, rfl⟩
        exact ⟨.reResolve rfl rfl rfl hdropped hjoined, fun _ _ => rfl⟩

theorem prog_meets (request : Request) :
    meets request.prog (fun _ loc => loc.locked = []) (.fresh (some request)) := by
  cases request with
  | putConfig nodeId specs schedules =>
    refine ⟨trivial, fun found _ => ?_⟩
    cases found with
    | false => exact rfl
    | true =>
      cases schedules with
      | some schedules => exact ⟨⟨⟨_, rfl, rfl⟩, nofun⟩, fun _ _ => rfl⟩
      | none => exact ⟨trivial, fun config _ => ⟨⟨⟨_, rfl, rfl⟩, fun _ => rfl⟩, fun _ _ => rfl⟩⟩
  | putSchedules nodeId schedules =>
    refine ⟨⟨_, rfl, rfl⟩, fun found _ => ?_⟩
    cases found with
    | false => exact rfl
    | true => exact ⟨⟨_, rfl, rfl⟩, fun _ _ => rfl⟩
  | register nodeId => exact ⟨⟨_, rfl, rfl⟩, fun _ _ => rfl⟩
  | create body => exact createSchedule_meets body
  | patch id body => exact patchSchedule_meets id body
  | delete id => exact deleteSchedule_meets id
  | reResolve id body => exact reResolveSchedule_meets id body

theorem center_obeys : center.Obeys terms where
  exec _ _ _ _ _ _ _ _ _ := trivial
  fire e sys sys' hsound h := by
    cases e with
    | start t request =>
      simp only [center, fire] at h
      split at h
      · cases h
        refine hsound.update ?_ _
        exact prog_meets request
      · cases h
    | abort t =>
      cases h
      refine hsound.update ?_ _
      exact rfl

theorem initial_sound (tables : Tables) : center.Sound terms (initial tables) := fun _ => rfl

end Novbot.Schedules
