import Novbot.Lib.SortedMap
import Novbot.Schedules.Entry
import Mathlib.Data.String.Basic

/-!
# Configs and target schedules

The tables `node_configs`, `target_schedules` and `target_schedule_nodes`, and the
statements of a transaction on them.  A column of JSON text holds the value.  A row of
`target_schedules` has the nodes of its resolution, whose row is written once.

The statements of a transaction take effect when it commits.  Until then they are its
list of writes, and what `lock_config` read is locked.
-/

namespace Novbot.Schedules

/-- A row of `node_configs`. -/
structure Config where
  generation : Int
  specs : Json
  schedules : Json

/-- What `INSERT IGNORE` inserts. -/
def Config.initial : Config := ⟨1, .arr [], .arr []⟩

/-- A row of `target_schedules`, with `node_ids_json` of its resolution. -/
structure Schedule where
  specId : String
  intervalSecs : Option Int
  cron : Option String
  enabled : Bool
  nodeIds : List String
  distinct : nodeIds.Nodup

/-- `value as i64`. -/
def asI64 (value : Nat) : Int :=
  if value < 2 ^ 63 then value else Int.subNatNat value (2 ^ 64)

/-- `u64::try_from(value).ok()`. -/
def toU64 (value : Int) : Option Nat := if 0 ≤ value then some value.toNat else none

/-- The timing of a schedule, as a view shows it. -/
def Schedule.timing (schedule : Schedule) : Timing :=
  ⟨schedule.intervalSecs.bind toU64, schedule.cron.filter (· ≠ "")⟩

inductive NodeState where
  | active
  | skippedExists
  | removedByNodeEdit
  deriving DecidableEq, Repr

structure Tables where
  /-- The registered nodes. -/
  nodes : String → Bool
  configs : String → Option Config
  schedules : String → Option Schedule
  scheduleNodes : String → SortedMap String NodeState

/-! ## Writes -/

inductive Write where
  | insertSchedule (id : String) (schedule : Schedule)
  | setTiming (id : String) (timing : Timing) (enabled : Bool)
  | setResolution (id : String) (nodeIds : List String) (distinct : nodeIds.Nodup)
  | deleteSchedule (id : String)
  | upsertNode (id nodeId : String) (state : NodeState)
  | deleteNode (id nodeId : String)
  /-- `INSERT IGNORE`. -/
  | insertConfig (nodeId : String)
  | setSchedules (nodeId : String) (entries : List Json)

/-- What a write does to the config of a node. -/
def Write.config (write : Write) (nodeId : String) (config : Option Config) : Option Config :=
  match write with
  | .insertConfig other => if other = nodeId then some (config.getD .initial) else config
  | .setSchedules other entries =>
    if other = nodeId then
      config.map fun config => ⟨config.generation + 1, config.specs, .arr entries⟩
    else config
  | _ => config

/-- What a write does to a schedule. -/
def Write.schedule (write : Write) (id : String) (schedule : Option Schedule) : Option Schedule :=
  match write with
  | .insertSchedule other inserted => if other = id then some inserted else schedule
  | .setTiming other timing enabled =>
    if other = id then
      schedule.map fun schedule => { schedule with
        intervalSecs := timing.intervalSecs.map asI64, cron := timing.cron, enabled }
    else schedule
  | .setResolution other nodeIds distinct =>
    if other = id then schedule.map fun schedule => { schedule with nodeIds, distinct }
    else schedule
  | .deleteSchedule other => if other = id then none else schedule
  | _ => schedule

/-- What a write does to the node rows of a schedule.  They go with the schedule. -/
def Write.nodes (write : Write) (id : String) (nodes : SortedMap String NodeState) :
    SortedMap String NodeState :=
  match write with
  | .deleteSchedule other => if other = id then .empty else nodes
  | .upsertNode other nodeId state => if other = id then nodes.insert nodeId state else nodes
  | .deleteNode other nodeId =>
    if other = id then nodes.filter fun name _ => name ≠ nodeId else nodes
  | _ => nodes

/-- The keys allow the write: no schedule is inserted twice, and a row that names a node
or a schedule needs it. -/
def Write.allowed (write : Write) (tables : Tables) : Bool :=
  match write with
  | .insertSchedule id _ => (tables.schedules id).isNone
  | .upsertNode id nodeId _ => (tables.schedules id).isSome && tables.nodes nodeId
  | .insertConfig nodeId => tables.nodes nodeId
  | _ => true

def Write.apply (write : Write) (tables : Tables) : Option Tables :=
  if write.allowed tables then
    some ⟨tables.nodes, fun nodeId => write.config nodeId (tables.configs nodeId),
      fun id => write.schedule id (tables.schedules id),
      fun id => write.nodes id (tables.scheduleNodes id)⟩
  else none

def applyAll (writes : List Write) (tables : Tables) : Option Tables :=
  writes.foldlM (fun tables write => write.apply tables) tables

/-! ## Row by row -/

/-- The node row of a schedule. -/
def Tables.state (tables : Tables) (id nodeId : String) : Option NodeState :=
  (tables.scheduleNodes id).lookup nodeId

/-- What a write does to a node row. -/
def Write.state (write : Write) (id nodeId : String) (state : Option NodeState) :
    Option NodeState :=
  match write with
  | .deleteSchedule other => if other = id then none else state
  | .upsertNode other node new => if other = id ∧ node = nodeId then some new else state
  | .deleteNode other node => if other = id ∧ node = nodeId then none else state
  | _ => state

theorem lookup_nodes (write : Write) (id nodeId : String) (nodes : SortedMap String NodeState) :
    (write.nodes id nodes).lookup nodeId = write.state id nodeId (nodes.lookup nodeId) := by
  cases write with
  | deleteSchedule other =>
    unfold Write.nodes Write.state
    dsimp only
    split
    · rfl
    · rfl
  | upsertNode other node state =>
    unfold Write.nodes Write.state
    by_cases h : other = id
    · simp [h, SortedMap.lookup_insert, eq_comm]
    · simp [h]
  | deleteNode other node =>
    unfold Write.nodes Write.state
    by_cases h : other = id
    · by_cases hnode : node = nodeId
      · cases hl : nodes.lookup nodeId <;> simp [h, hnode, SortedMap.lookup_filter, hl]
      · cases hl : nodes.lookup nodeId <;>
          simp [h, hnode, SortedMap.lookup_filter, hl, Ne.symm hnode]
    · simp [h]
  | _ => rfl

def configAfter (writes : List Write) (nodeId : String) (config : Option Config) : Option Config :=
  writes.foldl (fun config write => write.config nodeId config) config

def scheduleAfter (writes : List Write) (id : String) (schedule : Option Schedule) :
    Option Schedule :=
  writes.foldl (fun schedule write => write.schedule id schedule) schedule

def stateAfter (writes : List Write) (id nodeId : String) (state : Option NodeState) :
    Option NodeState :=
  writes.foldl (fun state write => write.state id nodeId state) state

/-- The writes of a transaction act on each row on its own. -/
structure Applied (writes : List Write) (tables tables' : Tables) : Prop where
  nodes : tables'.nodes = tables.nodes
  config : ∀ nodeId, tables'.configs nodeId = configAfter writes nodeId (tables.configs nodeId)
  schedule : ∀ id, tables'.schedules id = scheduleAfter writes id (tables.schedules id)
  state : ∀ id nodeId, tables'.state id nodeId = stateAfter writes id nodeId (tables.state id nodeId)

theorem applied_of_applyAll {writes : List Write} {tables tables' : Tables}
    (h : applyAll writes tables = some tables') : Applied writes tables tables' := by
  induction writes generalizing tables with
  | nil =>
    cases h
    exact ⟨rfl, fun _ => rfl, fun _ => rfl, fun _ _ => rfl⟩
  | cons write writes ih =>
    rw [applyAll, List.foldlM_cons] at h
    obtain ⟨mid, hmid, hrest⟩ := Option.bind_eq_some_iff.mp h
    unfold Write.apply at hmid
    split at hmid
    · cases hmid
      have hlater := ih hrest
      refine ⟨hlater.nodes, hlater.config, hlater.schedule, fun id nodeId => ?_⟩
      rw [hlater.state, stateAfter, stateAfter, List.foldl_cons, Tables.state, lookup_nodes]
      rfl
    · cases hmid

end Novbot.Schedules
