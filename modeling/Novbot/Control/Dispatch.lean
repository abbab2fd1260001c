import Novbot.Control.Session

/-!
# The dispatch requests

The HTTP requests that reach a node through the hub: `dispatch_command` and
`push_skill_group` of `http.rs`, `dispatch_target` of `targets.rs`, and
`push_pending` of `skill_delivery.rs`, which follows a skill write.

`dispatchToNode` sends live and writes a row only when that fails.
`dispatchTarget` commits a row for each node first, sends, and marks the rows
that were sent.  What decides the target (selectors, confirmation of production
nodes, the stored resolution) is one operation each.
-/

namespace Novbot.Control

open Concurrent Prog

variable (setup : Setup)

/-- `hub.send`: clones the sender of the node, then sends on the clone. -/
def hubSend (nodeId : NodeId) (msg : ServerMessage) : Prog Bool := do
  match ← hubSender nodeId with
  | some tx => pushSend tx msg
  | none => return false

/-! ## One node -/

def dispatchToNode (nodeId : NodeId) (specId : String) (params : Option Json)
    (runId : Option RunId) : Prog (Except String DispatchRun) := do
  let runId ← match runId with
    | some given => pure given
    | none => newUuid
  let paramsJson := setup.json.print (params.getD (.obj []))
  let requestId ← newUuid
  let live ← hubSend nodeId ⟨requestId, some (.dispatch ⟨nodeId, runId, specId, paramsJson⟩)⟩
  if live then return .ok ⟨nodeId, runId, "live"⟩
  if ← enqueueDispatch nodeId runId specId paramsJson then
    return .ok ⟨nodeId, runId, "queued"⟩
  return .error "internal error"

def specPresent (specsJson specId : String) : Bool :=
  match (setup.json.parse specsJson).bind Json.asArray with
  | some specs => specs.any fun spec => (spec.get "id").bind Json.asStr = some specId
  | none => false

structure DispatchBody where
  specId : String
  params : Option Json
  runId : Option RunId

def dispatchCommand (id : NodeId) (body : DispatchBody) : Prog Unit := do
  match ← getConfig id with
  | .error message => respond (.refused message)
  | .ok none => respond (.refused "node config not found; PUT config first")
  | .ok (some cfg) =>
    if !specPresent setup cfg.specsJson body.specId then
      respond (.refused "unknown spec")
    else
      match ← ensureProdConfirm id with
      | .error message => respond (.refused message)
      | .ok _ =>
        match ← dispatchToNode setup id body.specId body.params body.runId with
        | .ok run => respond (.accepted [run] [])
        | .error message => respond (.refused message)

/-! ## A skill group -/

/-- The spec that runs a skill: a `skill` spec with the name, or a spec with the
name as its id, whichever comes first. -/
def resolveSpecIdForSkill (specs : List Json) (skill : String) : String :=
  match specs with
  | [] => skill
  | spec :: rest =>
    let kind := ((spec.get "kind").bind Json.asStr).getD ""
    let id := ((spec.get "id").bind Json.asStr).getD ""
    let skillName := ((spec.get "params").bind (Json.get "skill")).bind Json.asStr
    if kind = "skill" ∧ skillName = some skill ∧ id ≠ "" then id
    else if id = skill then skill
    else resolveSpecIdForSkill rest skill

def dispatchSkills (nodeId : NodeId) (specs : List Json) : List String → Prog (List DispatchRun)
  | [] => return []
  | skill :: skills => do
    let sent ← dispatchToNode setup nodeId (resolveSpecIdForSkill specs skill) none none
    let runs ← dispatchSkills nodeId specs skills
    match sent with
    | .ok run => return run :: runs
    | .error _ => return runs

def dispatchNamedSkills (skills : List String) : List NodeId →
    Prog (Except String (List DispatchRun))
  | [] => return .ok []
  | nodeId :: nodeIds => do
    match ← getConfig nodeId with
    | .error message => return .error message
    | .ok none => dispatchNamedSkills skills nodeIds
    | .ok (some cfg) =>
      let specs := ((setup.json.parse cfg.specsJson).bind Json.asArray).getD []
      let runs ← dispatchSkills setup nodeId specs skills
      match ← dispatchNamedSkills skills nodeIds with
      | .error message => return .error message
      | .ok more => return .ok (runs ++ more)

def pushSkillGroup (skills : List String) : Prog Unit := do
  match ← checkSubmit with
  | .error message => respond (.refused message)
  | .ok nodeIds =>
    if !(← storeResolution) then respond (.refused "internal error")
    else
      match ← dispatchNamedSkills setup skills nodeIds with
      | .error message => respond (.refused message)
      | .ok runs => respond (.accepted runs [])

/-! ## A target -/

structure DispatchRequest where
  specId : String
  params : Option Json

/-- A fresh run for each node. -/
def planRuns : List NodeId → Prog (List (NodeId × RunId))
  | [] => return []
  | nodeId :: nodeIds => do
    let runId ← newUuid
    return (nodeId, runId) :: (← planRuns nodeIds)

/-- Sends each committed run, and marks the row of a live one.  The outcome of
the mark is ignored. -/
def sendPlanned (specId paramsJson : String) : List (NodeId × RunId) → Prog (List DispatchRun)
  | [] => return []
  | (nodeId, runId) :: planned => do
    let requestId ← newUuid
    let live ← hubSend nodeId
      ⟨requestId, some (.dispatch ⟨nodeId, runId, specId, paramsJson⟩)⟩
    if live then
      let _ ← markInFlight nodeId runId
    let runs ← sendPlanned specId paramsJson planned
    return ⟨nodeId, runId, if live then "live" else "queued"⟩ :: runs

/-- The nodes whose config lacks the spec. -/
def specMissing (specId : String) : List NodeId → Prog (List NodeId)
  | [] => return []
  | nodeId :: nodeIds => do
    let present := match ← getConfig nodeId with
      | .ok (some cfg) => specPresent setup cfg.specsJson specId
      | _ => false
    let missing ← specMissing specId nodeIds
    return if present then missing else nodeId :: missing

def dispatchTarget (body : DispatchRequest) : Prog Unit := do
  let specId := String.ofList (Text.trim body.specId.toList)
  if specId = "" then respond (.refused "spec_id is required")
  else
    match ← checkSubmit with
    | .error message => respond (.refused message)
    | .ok nodeIds =>
      let paramsJson := setup.json.print (body.params.getD (.obj []))
      let planned ← planRuns nodeIds
      if !(← commitDispatch specId paramsJson planned) then
        respond (.refused "internal error")
      else
        let runs ← sendPlanned specId paramsJson planned
        let warnings ← specMissing setup specId nodeIds
        respond (.accepted runs warnings)

/-! ## Desired sets after a skill write -/

/-- Sends the desired set to each connected node with a skill ABI. -/
def pushEach : List NodeId → Prog Unit
  | [] => return
  | nodeId :: nodeIds => do
    if (← skillAbi nodeId).getD "" ≠ "" then
      if ← isConnected nodeId then
        match ← buildDesired nodeId with
        | .ok desired =>
          let requestId ← newUuid
          let _ ← hubSend nodeId ⟨requestId, some (.desiredSkills desired)⟩
        | .error _ => pure ()
    pushEach nodeIds

def pushPending (nodeIds : List NodeId) : Prog Unit := pushEach nodeIds.dedup

end Novbot.Control
