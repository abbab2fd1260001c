import Novbot.Control.Session

/-!
# The node

The parts of `novbot-node/src/main.rs` and `novbot-core/src/retry.rs` that run
dispatches and report: `run_dispatch`, the second half of `run_due`,
`send_report_or_spool`, `flush_spool`, and the branches of `on_server` that a
dispatch depends on.  Other frames the node sends (registration, heartbeats,
pulls) come from the environment of the model.

The spool file is a list of items.  An append adds one whole line, and `drain`
reads the file and clears it in two steps.  A report that cannot be handed to
the session's channel goes to the spool.
-/

namespace Novbot.Control

open Concurrent Prog

variable (setup : Setup)

/-! ## Sending and spooling -/

/-- Clones the outbound sender, then sends on the clone. -/
def trySend (msg : ClientMessage) : Prog Bool := do
  match ← sessionOut with
  | some tx => clientSend tx msg
  | none => return false

/-- `RetrySpool::enqueue`. -/
def spoolEnqueue (item : PendingReport) : Prog Bool :=
  spoolAppend { item with attempts := max item.attempts 1 }

/-- Fails when the report can be neither sent nor spooled. -/
def sendReportOrSpool (msg : ClientMessage) (pending : PendingReport) : Prog Bool := do
  if ← trySend msg then return true
  else spoolEnqueue pending

/-- Sends a report, or spools it as tried once. -/
def sendReport (report : ReportResultRequest) : Prog Bool := do
  let requestId ← newUuid
  sendReportOrSpool ⟨requestId, some (.reportResult report)⟩ ⟨report, 1⟩

/-- Sends drained items until a send fails.  The failing item goes back to the
spool, what follows it does not. -/
def sendSpooled : List PendingReport → Prog Unit
  | [] => return
  | item :: items => do
    let requestId ← newUuid
    if ← trySend ⟨requestId, some (.reportResult item.report)⟩ then
      sendSpooled items
    else
      let _ ← spoolEnqueue { item with attempts := item.attempts + 1 }

def spoolDrain : Prog (Option (List PendingReport)) := do
  match ← spoolRead with
  | none => return none
  | some items =>
    spoolClear
    return some items

def flushSpool : Prog Unit := do
  let connected := (← sessionOut).isSome
  if connected then
    match ← spoolDrain with
    | none => return
    | some items => sendSpooled items

/-! ## Running specs -/

/-- The params of a dispatch over those of its spec. -/
def applyDispatchOverlay (spec : Spec) (paramsJson : String) : Spec :=
  if (Text.trim paramsJson.toList).isEmpty then spec
  else
    match (setup.json.parse paramsJson).bind Json.asObject with
    | none => spec
    | some overlay =>
      let base := (Json.asObject spec.params).getD []
      { spec with params := .obj (overlay.foldl (fun m (key, value) => Json.insert key value m) base) }

def duplicateReport (nodeId : NodeId) (d : Dispatch) (observedAt : Nat) : ReportResultRequest :=
  ⟨nodeId, d.runId, d.specId, "ok", setup.json.print (.obj [("reason", .str "duplicate")]),
    observedAt⟩

/-- The outcome of a dispatch: executed, or failed for want of config or spec. -/
def dispatchOutcome (nodeId : NodeId) (runId : RunId) (d : Dispatch) :
    Prog ReportResultRequest := do
  match ← findSpec d.specId with
  | .error reason =>
    let observedAt ← now
    let payload := Json.obj [("reason", .str reason), ("spec_id", .str d.specId)]
    return ⟨nodeId, runId, d.specId, "failed", setup.json.print payload, observedAt⟩
  | .ok spec =>
    let spec := applyDispatchOverlay setup spec d.paramsJson
    let observedAt ← now
    let (status, payload) ← executeSpec spec runId
    return ⟨nodeId, runId, spec.id, status, setup.json.print payload, observedAt⟩

/-- A run this process has seen is answered as a duplicate.  A dispatch that
cannot run still reports `failed`. -/
def runDispatch (nodeId : NodeId) (d : Dispatch) : Prog Unit := do
  let runId ← if d.runId = "" then newUuid else pure d.runId
  let fresh ← if d.runId = "" then pure true else seenInsert d.runId
  if !fresh then
    let observedAt ← now
    let _ ← sendReport (duplicateReport setup nodeId d observedAt)
  else
    let report ← dispatchOutcome setup nodeId runId d
    writeEgress report
    let _ ← sendReport report

/-- The loop of `run_due` over the specs that are due.  A report that is lost ends it. -/
def runDue (nodeId : NodeId) : List Spec → Prog Unit
  | [] => return
  | spec :: specs => do
    let runId ← newUuid
    let observedAt ← now
    let (status, payload) ← executeSpec spec runId
    let report : ReportResultRequest :=
      ⟨nodeId, runId, spec.id, status, setup.json.print payload, observedAt⟩
    writeEgress report
    if ← sendReport report then
      runDue nodeId specs

/-- The branches of `on_server` that config and dispatches take. -/
def onServer (nodeId : NodeId) (msg : ServerMessage) : Prog Unit :=
  match msg.body with
  | some (.pullConfig generation specsJson schedulesJson) => do
    let _ ← applyConfig generation specsJson schedulesJson
  | some (.dispatch d) => runDispatch setup nodeId d
  | _ => return

end Novbot.Control
