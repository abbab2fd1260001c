import Novbot.Control.Message
import Mathlib.Logic.Function.Basic

/-!
# The center's tables

The tables the control stream and the dispatch paths use, with one function for
each statement or transaction of `novbot-center/src/db.rs` (and `apply_report`
of `skill_delivery.rs`).  A function that fails returns `none` and changes
nothing.  What a row of `results`, `pending_dispatches` or `node_skills_actual`
refers to must be a known node, as the foreign keys demand.

Left out are the columns nothing here reads (`created_at`, `received_at`, the
descriptive columns of `nodes`) and the audit events that `apply_report` and a
result with denials append.
-/

namespace Novbot.Control

/-! ## Rows -/

/-- A row of `pending_dispatches`. -/
structure PendingRow where
  id : Nat
  nodeId : NodeId
  runId : RunId
  specId : String
  paramsJson : String
  inFlightAt : Option Nat
  attemptCount : Nat
  deriving DecidableEq, Repr

/-- The row can be claimed: not in flight, or in flight since before the cutoff. -/
def PendingRow.available (row : PendingRow) (cutoff : Nat) : Bool :=
  match row.inFlightAt with
  | none => true
  | some at' => at' < cutoff

/-- A row of `results`. -/
structure ResultRow where
  nodeId : NodeId
  runId : RunId
  specId : String
  status : String
  payloadJson : String
  observedAt : Int
  deriving DecidableEq, Repr

/-- A row of `node_configs`. -/
structure NodeConfig where
  configGeneration : Int
  specsJson : String
  schedulesJson : String
  deriving DecidableEq, Repr

/-- A row of `node_skills_desired` joined with its version. -/
structure DesiredRow where
  skillName : String
  version : String
  sha256 : String
  abi : String
  sizeBytes : Int
  capabilitiesSha256 : String
  deriving DecidableEq, Repr

/-- A row of `node_skills_actual`. -/
structure ActualRow where
  skill : InstalledSkill
  appliedGeneration : Int
  deriving DecidableEq, Repr

/-- A row as `claim_pending_dispatches` returns it.  The node and the mark that
the claim replaced are not among the columns it selects. -/
structure ClaimedDispatch where
  id : Nat
  runId : RunId
  specId : String
  paramsJson : String
  nodeId : NodeId
  replaced : Option Nat
  deriving DecidableEq, Repr

structure Db where
  nodes : List NodeId
  configs : NodeId → Option NodeConfig
  pending : List PendingRow
  /-- The next value of the `pending_dispatches` id. -/
  nextId : Nat
  results : List ResultRow
  skillSets : NodeId → Option Int
  desired : NodeId → List DesiredRow
  actual : NodeId → List ActualRow

namespace Db

def empty : Db := ⟨[], fun _ => none, [], 0, [], fun _ => none, fun _ => [], fun _ => []⟩

/-! ## Nodes and configs -/

/-- The rows `register_node` needs for a node: one in `nodes` and, if there is
none, the first config. -/
def registerNode (db : Db) (nodeId : NodeId) : Db :=
  { db with
    nodes := if nodeId ∈ db.nodes then db.nodes else nodeId :: db.nodes
    configs :=
      if (db.configs nodeId).isSome then db.configs
      else Function.update db.configs nodeId (some ⟨1, "[]", "[]"⟩) }

/-- `config_generation = config_generation + 1` with the new texts. -/
def putConfig (db : Db) (nodeId : NodeId) (specsJson schedulesJson : String) : Db :=
  let generation :=
    match db.configs nodeId with
    | some cfg => cfg.configGeneration + 1
    | none => 1
  { db with configs :=
      Function.update db.configs nodeId (some ⟨generation, specsJson, schedulesJson⟩) }

/-- `db.config_generation`: 0 for a node without a config. -/
def configGeneration (db : Db) (nodeId : NodeId) : Int :=
  match db.configs nodeId with
  | some cfg => cfg.configGeneration
  | none => 0

/-- `skill_delivery::generation`. -/
def skillGeneration (db : Db) (nodeId : NodeId) : Int := (db.skillSets nodeId).getD 0

/-! ## Pending dispatches -/

/-- One insert into `pending_dispatches`. -/
def insertPending (db : Db) (nodeId : NodeId) (runId : RunId) (specId paramsJson : String) : Db :=
  { db with
    pending := db.pending ++ [⟨db.nextId, nodeId, runId, specId, paramsJson, none, 0⟩]
    nextId := db.nextId + 1 }

def enqueueDispatch (db : Db) (nodeId : NodeId) (runId : RunId) (specId paramsJson : String) :
    Option Db :=
  if nodeId ∈ db.nodes then some (db.insertPending nodeId runId specId paramsJson) else none

/-- The rows of one `dispatch_target` transaction. -/
def insertPlanned (db : Db) (specId paramsJson : String) (planned : List (NodeId × RunId)) : Db :=
  planned.foldl (fun db (nodeId, runId) => db.insertPending nodeId runId specId paramsJson) db

def commitDispatch (db : Db) (specId paramsJson : String) (planned : List (NodeId × RunId)) :
    Option Db :=
  if ∀ p ∈ planned, p.1 ∈ db.nodes then some (db.insertPlanned specId paramsJson planned) else none

/-- Marks the available rows of the node and returns them in order of id. -/
def claimPendingDispatches (db : Db) (print : String → String) (nodeId : NodeId)
    (cutoff now : Nat) : List ClaimedDispatch × Db :=
  let takes := fun row : PendingRow => row.nodeId = nodeId ∧ row.available cutoff
  ((db.pending.filter fun row => takes row).map fun row =>
      ⟨row.id, row.runId, row.specId, print row.paramsJson, row.nodeId, row.inFlightAt⟩,
    { db with pending := db.pending.map fun row =>
        if takes row then
          { row with inFlightAt := some now, attemptCount := row.attemptCount + 1 }
        else row })

/-- Drops the queue rows of a reported run. -/
def ackPendingDispatch (db : Db) (nodeId : NodeId) (runId : RunId) : Db :=
  { db with pending := db.pending.filter fun row => ¬ (row.nodeId = nodeId ∧ row.runId = runId) }

def requeuePendingDispatches (db : Db) (ids : List Nat) : Db :=
  { db with pending := db.pending.map fun row =>
      if row.id ∈ ids then { row with inFlightAt := none } else row }

def requeueInFlightForNode (db : Db) (nodeId : NodeId) : Db :=
  { db with pending := db.pending.map fun row =>
      if row.nodeId = nodeId then { row with inFlightAt := none } else row }

/-- The update of `dispatch_target` after a live send. -/
def markInFlight (db : Db) (nodeId : NodeId) (runId : RunId) (now : Nat) : Db :=
  { db with pending := db.pending.map fun row =>
      if row.nodeId = nodeId ∧ row.runId = runId then
        { row with inFlightAt := some now, attemptCount := row.attemptCount + 1 }
      else row }

/-! ## Reports -/

def insertResult (db : Db) (row : ResultRow) : Option Db :=
  if row.nodeId ∈ db.nodes then some { db with results := db.results ++ [row] } else none

/-- The highest generation of the stored rows, at least 0. -/
def maxGeneration (rows : List ActualRow) : Int :=
  rows.foldl (fun m row => max m row.appliedGeneration) 0

/-- `apply_report`: a report older than a stored row is dropped, any other
replaces the rows of its node. -/
def applyReport (db : Db) (report : SkillStateReport) : Option Db :=
  if report.appliedGeneration < maxGeneration (db.actual report.nodeId) then some db
  else if report.skills ≠ [] ∧ report.nodeId ∉ db.nodes then none
  else if ¬ (report.skills.map (·.name)).Nodup then none
  else
    let rows := report.skills.map fun skill => ⟨skill, report.appliedGeneration⟩
    some { db with actual := Function.update db.actual report.nodeId rows }

end Db

end Novbot.Control
