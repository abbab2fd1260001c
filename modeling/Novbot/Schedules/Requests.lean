import Novbot.Lib.Program
import Novbot.Schedules.Tables

/-!
# Requests on configs and target schedules

The operations of the center on a node's config and on target schedules, as programs
over the statements they send.  A request that fails before its transaction changes
nothing, so what only refuses (reading the target, the confirmation of production
nodes) is in the request.
-/

namespace Novbot.Schedules

open Concurrent Text

inductive Op where
  | nodeExists (nodeId : String)
  /-- `get_config`. -/
  | readConfig (nodeId : String)
  /-- The upsert of `put_config`, and whether the request supplied the schedules. -/
  | upsertConfig (nodeId : String) (specs schedules : Json) (supplied : Bool)
  /-- The update of `put_schedules`, whose reply says that there was a row. -/
  | updateSchedules (nodeId : String) (schedules : Json)
  /-- `note_node_schedule_edit`. -/
  | noteEdit (nodeId : String) (schedules : Json)
  /-- `tags::register_node`, as far as the node and its config go. -/
  | registerNode (nodeId : String)
  /-- The row of a schedule, joined with its resolution. -/
  | readSchedule (id : String)
  | readNodes (id : String)
  /-- The target of a schedule.  The reply says that there is one. -/
  | readTarget (id : String)
  | newUuid
  /-- The lock that a statement on the row of a schedule takes. -/
  | lockSchedule (id : String)
  /-- `lock_config`. -/
  | lockConfig (nodeId : String)
  /-- The writes of the transaction take effect, unless the keys forbid one. -/
  | commit (writes : List Write)

@[reducible] def Op.Reply : Op → Type
  | .nodeExists _ => Bool
  | .readConfig _ => Option Config
  | .upsertConfig _ _ _ _ => Unit
  | .updateSchedules _ _ => Bool
  | .noteEdit _ _ => Unit
  | .registerNode _ => Unit
  | .readSchedule _ => Option Schedule
  | .readNodes _ => SortedMap String NodeState
  | .readTarget _ => Bool
  | .newUuid => String
  | .lockSchedule _ => Unit
  | .lockConfig _ => Option Config
  | .commit _ => Bool

abbrev Prog (α : Type) := Program Op.Reply α

def call (op : Op) : Prog op.Reply := Program.call op

/-! ## Configs -/

/-- The schedules that a config row holds. -/
def schedulesOf (config : Option Config) : Json := (config.map (·.schedules)).getD (.arr [])

def entriesOf (config : Option Config) : List Json := parseEntries (schedulesOf config)

def putConfig (nodeId : String) (specs : Json) (schedules : Option Json) : Prog Unit := do
  if (← call (.nodeExists nodeId)) then
    match schedules with
    | some schedules => call (.upsertConfig nodeId specs schedules true)
    | none =>
      let config ← call (.readConfig nodeId)
      call (.upsertConfig nodeId specs (schedulesOf config) false)

def putSchedules (nodeId : String) (schedules : Json) : Prog Unit := do
  if (← call (.updateSchedules nodeId schedules)) then
    call (.noteEdit nodeId schedules)

/-! ## Writes to the configs of the nodes of a schedule -/

/-- `lock_config` inserts a config that is missing. -/
def inserted (locked : String × Option Config) : List Write :=
  if locked.2.isNone then [.insertConfig locked.1] else []

/-- The entry of a schedule, unless the node runs the spec already. -/
def addTo (id specId : String) (timing : Timing) (enabled : Bool)
    (locked : String × Option Config) : List Write :=
  let entries := entriesOf locked.2
  inserted locked ++
    if hasSpec entries specId then [.upsertNode id locked.1 .skippedExists]
    else
      [.setSchedules locked.1 (entries ++ [scheduleEntry specId timing enabled (originOf id)]),
        .upsertNode id locked.1 .active]

def patchIn (id : String) (timing : Timing) (enabled : Bool) (locked : String × Option Config) :
    List Write :=
  let entries := entriesOf locked.2
  inserted locked ++
    if entries.any (hasOrigin (originOf id)) then
      [.setSchedules locked.1 (entries.map (patchEntry (originOf id) timing enabled))]
    else []

def removeFrom (id : String) (locked : String × Option Config) : List Write :=
  inserted locked ++
    [.setSchedules locked.1 ((entriesOf locked.2).filter fun entry => !hasOrigin (originOf id) entry)]

def dropFrom (id : String) (locked : String × Option Config) : List Write :=
  removeFrom id locked ++ [.deleteNode id locked.1]

def lockConfigs : List String → Prog (List (String × Option Config))
  | [] => pure []
  | nodeId :: rest => do
    let config ← call (.lockConfig nodeId)
    let locked ← lockConfigs rest
    pure ((nodeId, config) :: locked)

/-! ## Target schedules -/

structure CreateSchedule where
  specId : String
  intervalSecs : Option Nat
  cron : Option String
  enabled : Bool
  /-- The nodes that `check_submit` resolved. -/
  frozen : List String
  distinct : frozen.Nodup

def createdRow (body : CreateSchedule) (timing : Timing) : Schedule where
  specId := String.ofList (trim body.specId.toList)
  intervalSecs := timing.intervalSecs.map asI64
  cron := timing.cron
  enabled := body.enabled
  nodeIds := body.frozen
  distinct := body.distinct

def createWrites (id : String) (body : CreateSchedule) (timing : Timing)
    (locked : List (String × Option Config)) : List Write :=
  .insertSchedule id (createdRow body timing) ::
    locked.flatMap (addTo id (createdRow body timing).specId timing body.enabled)

def createSchedule (body : CreateSchedule) : Prog Unit := do
  if trim body.specId.toList = [] then pure ()
  else
    match validateTiming body.intervalSecs body.cron with
    | .error _ => pure ()
    | .ok timing =>
      let id ← call .newUuid
      let locked ← lockConfigs body.frozen
      let _ ← call (.commit (createWrites id body timing locked))

structure PatchSchedule where
  intervalSecs : Option Nat
  clearInterval : Bool
  cron : Option String
  clearCron : Bool
  enabled : Option Bool

/-- The timing that a patch asks for. -/
def PatchSchedule.timing (body : PatchSchedule) (current : Schedule) : Except String Timing :=
  validateTiming
    (if body.clearInterval then none else body.intervalSecs.or current.timing.intervalSecs)
    (if body.clearCron then none else (trimmed body.cron).or current.timing.cron)

/-- The nodes that run a schedule, as a view shows them. -/
def activeIn (nodes : SortedMap String NodeState) : List String :=
  (nodes.filter fun _ state => state = .active).keys

def patchWrites (id : String) (timing : Timing) (enabled : Bool)
    (locked : List (String × Option Config)) : List Write :=
  .setTiming id timing enabled :: locked.flatMap (patchIn id timing enabled)

def patchSchedule (id : String) (body : PatchSchedule) : Prog Unit := do
  match (← call (.readSchedule id)) with
  | none => pure ()
  | some current =>
    let nodes ← call (.readNodes id)
    match body.timing current with
    | .error _ => pure ()
    | .ok timing =>
      call (.lockSchedule id)
      let locked ← lockConfigs (activeIn nodes)
      let _ ← call (.commit (patchWrites id timing (body.enabled.getD current.enabled) locked))

def deleteWrites (id : String) (locked : List (String × Option Config)) : List Write :=
  locked.flatMap (removeFrom id) ++ [.deleteSchedule id]

def deleteSchedule (id : String) : Prog Unit := do
  match (← call (.readSchedule id)) with
  | none => pure ()
  | some _ =>
    let nodes ← call (.readNodes id)
    let locked ← lockConfigs nodes.keys
    call (.lockSchedule id)
    let _ ← call (.commit (deleteWrites id locked))

def maxTargets : Nat := 5000

structure ReResolve where
  /-- The nodes that the target matches now. -/
  live : List String
  distinct : live.Nodup
  prodNodeIds : List String
  expectedDiff : Option (List String × List String)
  dryRun : Bool
  confirmProd : Option Nat

def diffIds (expected live : List String) : List String × List String :=
  (live.filter fun id => !expected.contains id, expected.filter fun id => !live.contains id)

def sortedUnique (ids : List String) : List String :=
  let trimmed := ids.map fun id => String.ofList (trim id.toList)
  (SortedMap.ofList ((trimmed.filter (· ≠ "")).map fun id => (id, ()))).keys

/-- The request stops before it writes. -/
def ReResolve.stops (body : ReResolve) (added removed : List String) : Bool :=
  (body.expectedDiff.any fun expected =>
    sortedUnique expected.1 ≠ added || sortedUnique expected.2 ≠ removed) ||
  maxTargets < body.live.length || body.dryRun ||
  (body.prodNodeIds ≠ [] && body.confirmProd ≠ some body.prodNodeIds.length)

def reResolveWrites (id : String) (body : ReResolve) (current : Schedule)
    (removed added : List (String × Option Config)) : List Write :=
  .setResolution id body.live body.distinct ::
    (removed.flatMap (dropFrom id) ++
      added.flatMap (addTo id current.specId current.timing current.enabled))

def reResolveSchedule (id : String) (body : ReResolve) : Prog Unit := do
  match (← call (.readSchedule id)) with
  | none => pure ()
  | some current =>
    let _ ← call (.readNodes id)
    if (← call (.readTarget id)) then
      let (added, removed) := diffIds current.nodeIds body.live
      if body.stops added removed then pure ()
      else
        call (.lockSchedule id)
        let dropped ← lockConfigs removed
        let joined ← lockConfigs added
        let _ ← call (.commit (reResolveWrites id body current dropped joined))

/-! ## What a thread serves -/

inductive Request where
  | putConfig (nodeId : String) (specs : Json) (schedules : Option Json)
  | putSchedules (nodeId : String) (schedules : Json)
  | register (nodeId : String)
  | create (body : CreateSchedule)
  | patch (id : String) (body : PatchSchedule)
  | delete (id : String)
  | reResolve (id : String) (body : ReResolve)

def Request.prog : Request → Prog Unit
  | .putConfig nodeId specs schedules => Schedules.putConfig nodeId specs schedules
  | .putSchedules nodeId schedules => Schedules.putSchedules nodeId schedules
  | .register nodeId => call (.registerNode nodeId)
  | .create body => createSchedule body
  | .patch id body => patchSchedule id body
  | .delete id => deleteSchedule id
  | .reResolve id body => reResolveSchedule id body

end Novbot.Schedules
