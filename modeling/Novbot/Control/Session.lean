import Novbot.Control.Op

/-!
# The session task

`handle` and the loop of `session` in `novbot-center/src/grpc.rs`, with
`build_desired` of `skill_delivery.rs`.  The loop waits for one of three events.
Each has a program here, which starts from the task's `bound_node` and `gate`:

* `onFrame`: a client message.  `onStreamEnd`: the stream ended or failed.
* `onPush`: a message from the push channel.
* `onTimer`: the readiness deadline.

A program that ends without `leave` goes back to the wait.

`touch_node` is left out: its result is ignored and nothing here reads
`last_seen_at`.
-/

namespace Novbot.Control

open Concurrent Prog

/-- What a deployment fixes. -/
structure Setup where
  bootstrapToken : Option String
  /-- Milliseconds until a bound session is ready without a `NodeReady`. -/
  readyTimeout : Nat
  json : Json.Codec
  /-- The timestamps in milliseconds that chrono can represent. -/
  validMillis : Int → Bool

/-- `PENDING_DISPATCH_ACK_TIMEOUT`. -/
def pendingDispatchAckTimeout : Nat := 60 * 1000

variable (setup : Setup)

/-! ## Replies -/

def errMsg (requestId code message : String) : ServerMessage := ⟨requestId, some (.error code message)⟩

def ackMsg (requestId ofRequestId : String) : ServerMessage :=
  ⟨requestId, some (.ack ofRequestId true "ok")⟩

def registerReply (requestId : String) (nodeId : NodeId) (accepted : Bool) (message : String) :
    ServerMessage :=
  ⟨requestId, some (.register nodeId accepted message)⟩

/-- The token is checked only when the center has a non-empty one. -/
def tokenRefused (req : RegisterRequest) : Bool :=
  match setup.bootstrapToken with
  | some tok => tok ≠ "" && req.bootstrapToken ≠ tok
  | none => false

def handleRegister (requestId : String) (req : RegisterRequest) :
    Prog (ServerMessage × Option NodeId) := do
  if tokenRefused setup req then
    return (registerReply requestId req.nodeId false "invalid bootstrap token", none)
  match ← registerNode req with
  | .ok _ =>
    -- Drop a half-open previous sender before this session is ready.
    hubEvict req.nodeId
    let _ ← requeueInFlightForNode req.nodeId
    noteAbi req.nodeId req.skillAbi
    return (registerReply requestId req.nodeId true "registered", some req.nodeId)
  | .error message => return (registerReply requestId req.nodeId false message, none)

def handleHeartbeat (requestId : String) (nodeId : NodeId) :
    Prog (ServerMessage × Option NodeId) := do
  let centerConfigGeneration := (← configGeneration nodeId).getD 0
  let centerSkillSetGeneration := (← skillGeneration nodeId).getD 0
  return (⟨requestId, some (.heartbeat true centerConfigGeneration centerSkillSetGeneration)⟩,
    some nodeId)

def defaultPolicy : SkillPolicy := ⟨4, 2, 256 * 1024 * 1024, 30000, 64⟩

/-- One entry of the desired list, with a ticket of its own. -/
def skillRefs (nodeId : NodeId) : List DesiredRow → Prog (Except String (List SkillRef))
  | [] => return .ok []
  | row :: rows => do
    let sha256 := Hub.normalSha row.sha256
    let ticket ← issueTicket nodeId sha256
    match ← signatureEnvelope nodeId row with
    | .error err => return .error err
    | .ok envelope =>
      match ← skillRefs nodeId rows with
      | .error err => return .error err
      | .ok skills =>
        return .ok (⟨row.skillName, row.version, sha256, row.sizeBytes, row.abi,
          .ofList (Text.trim row.capabilitiesSha256.toList), envelope, ticket⟩ :: skills)

/-- The generation is read before the rows. -/
def buildDesired (nodeId : NodeId) : Prog (Except String DesiredSkills) := do
  match ← skillGeneration nodeId with
  | none => return .error "generation"
  | some generation =>
    match ← desiredRows nodeId with
    | .error err => return .error err
    | .ok rows =>
      match ← skillRefs nodeId rows with
      | .error err => return .error err
      | .ok skills => return .ok ⟨nodeId, generation, skills, defaultPolicy⟩

def handlePullSkills (requestId : String) (nodeId : NodeId) :
    Prog (ServerMessage × Option NodeId) := do
  let abi := (← skillAbi nodeId).getD ""
  if abi = "" then
    return (errMsg requestId "node_too_old" "node did not advertise a skill abi", some nodeId)
  match ← buildDesired nodeId with
  | .ok desired => return (⟨requestId, some (.desiredSkills desired)⟩, some nodeId)
  | .error err => return (errMsg requestId "db" err, some nodeId)

def handleSkillState (requestId : String) (report : SkillStateReport) :
    Prog (ServerMessage × Option NodeId) := do
  match ← applyReport report with
  | .ok _ => return (ackMsg requestId requestId, some report.nodeId)
  | .error err => return (errMsg requestId "db" err, some report.nodeId)

def handlePullConfig (requestId : String) (nodeId : NodeId) :
    Prog (ServerMessage × Option NodeId) := do
  match ← getConfig nodeId with
  | .ok (some cfg) =>
    return (⟨requestId, some (.pullConfig cfg.configGeneration cfg.specsJson cfg.schedulesJson)⟩,
      some nodeId)
  | .ok none => return (⟨requestId, some (.pullConfig 0 "[]" "[]")⟩, some nodeId)
  | .error err => return (errMsg requestId "db" err, some nodeId)

/-- A payload that `denial_audit_detail` makes an audit event for. -/
def hasDenials (payloadJson : String) : Bool :=
  match (setup.json.parse payloadJson).bind (Json.get "denials") with
  | some (.arr (_ :: _)) => true
  | _ => false

def storeReportedResult (row : ResultRow) : Prog Bool := do
  if !(← insertResult row) then return false
  if !hasDenials setup row.payloadJson then return true
  auditDenials row

def resultRow (req : ReportResultRequest) (observedAt : Int) : ResultRow :=
  ⟨req.nodeId, req.runId, req.specId, req.status, req.payloadJson, observedAt⟩

def handleReportResult (requestId : String) (req : ReportResultRequest) :
    Prog (ServerMessage × Option NodeId) := do
  let received ← now
  let observed := if setup.validMillis req.observedAtUnixMs then req.observedAtUnixMs else received
  let accepted ← storeReportedResult setup (resultRow req observed)
  if accepted then
    let _ ← ackPendingDispatch req.nodeId req.runId
  return (⟨requestId, some (.reportResult accepted)⟩, some req.nodeId)

/-- The reply to a message and the node id the message binds the session to. -/
def handle (msg : ClientMessage) : Prog (ServerMessage × Option NodeId) :=
  match msg.body with
  | none => return (errMsg msg.requestId "empty" "missing body", none)
  | some (.register req) => handleRegister setup msg.requestId req
  | some (.heartbeat nodeId) => handleHeartbeat msg.requestId nodeId
  | some (.pullSkills nodeId) => handlePullSkills msg.requestId nodeId
  | some (.skillState report) => handleSkillState msg.requestId report
  | some (.pullConfig nodeId) => handlePullConfig msg.requestId nodeId
  | some (.reportResult req) => handleReportResult setup msg.requestId req
  | some (.nodeReady _ _) => return (ackMsg msg.requestId msg.requestId, none)
  | some (.ack ofRequestId) => return (ackMsg msg.requestId ofRequestId, none)

/-! ## Flushing the queue -/

/-- Sends claimed rows until a send fails, and requeues the rest. -/
def sendClaimed : List ClaimedDispatch → Prog Unit
  | [] => return
  | row :: rows => do
    let requestId ← newUuid
    let dispatch : Dispatch := ⟨row.nodeId, row.runId, row.specId, row.paramsJson⟩
    if ← streamSend ⟨requestId, some (.dispatch dispatch)⟩ then
      sendClaimed rows
    else
      let _ ← requeuePendingDispatches ((row :: rows).map (·.id))

def flushPending (nodeId : NodeId) : Prog Unit := do
  let cutoff := (← now) - pendingDispatchAckTimeout
  match ← claimPendingDispatches nodeId cutoff with
  | none => return
  | some pending => sendClaimed pending

/-- Hub registration happens before the queue is taken. -/
def activateReady (nodeId : NodeId) : Prog Unit := do
  hubRegister nodeId
  flushPending nodeId

/-- The gate after a `NodeReady` of the bound node, and whether it flushed.  A
failed read of the center's generation counts as 0. -/
def applyNodeReady (gate : ReadyGate) (nodeId : NodeId) (ackedGen : Int) :
    Prog (Bool × ReadyGate) := do
  let centerGen := (← configGeneration nodeId).getD 0
  let (opened, gate) := gate.onNodeReady ackedGen centerGen
  if opened then
    setGate gate
    activateReady nodeId
  return (opened, gate)

/-! ## The loop -/

/-- Unregisters the session under a node id and makes the node's rows available. -/
def release (nodeId : NodeId) : Prog Unit := do
  hubUnregister nodeId
  let _ ← requeueInFlightForNode nodeId

/-- What follows the loop. -/
def endSession (bound : Option NodeId) : Prog Unit := do
  leave
  match bound with
  | some nodeId => release nodeId
  | none => return

/-- A message that names another node binds the session to it, with a new gate. -/
def rebind (bound : Option NodeId) (gate : ReadyGate) (nodeId : Option NodeId) :
    Prog (Option NodeId × ReadyGate) := do
  match nodeId with
  | none => return (bound, gate)
  | some nid =>
    if bound = some nid then return (bound, gate)
    match bound with
    | some old => release old
    | none => pure ()
    let gate := (ReadyGate.new setup.readyTimeout).onBound (← now)
    bindNode nid gate
    return (some nid, gate)

/-- A `NodeReady` counts when it names the bound node. -/
def nodeReadyTurn (bound : Option NodeId) (gate : ReadyGate) (body : Option ClientBody) :
    Prog (Bool × ReadyGate) :=
  match body, bound with
  | some (.nodeReady readyNid ackedGen), some nid =>
    if nid = readyNid then applyNodeReady gate nid ackedGen else return (false, gate)
  | _, _ => return (false, gate)

def onFrame (bound : Option NodeId) (gate : ReadyGate) (msg : ClientMessage) : Prog Unit := do
  let (reply, nodeId) ← handle setup msg
  let (bound, gate) ← rebind setup bound gate nodeId
  let (flushedOnTransition, gate) ← nodeReadyTurn bound gate msg.body
  if gate.isReady && !flushedOnTransition then
    match bound with
    | some nid => flushPending nid
    | none => pure ()
  if !(← streamSend reply) then
    endSession bound

def onStreamEnd (bound : Option NodeId) : Prog Unit := endSession bound

def onPush (bound : Option NodeId) (msg : ServerMessage) : Prog Unit := do
  if !(← streamSend msg) then
    endSession bound

def onTimer (bound : Option NodeId) (gate : ReadyGate) (due : Nat) : Prog Unit := do
  let (opened, gate) := gate.onTimeout (max (← now) due)
  if opened then
    setGate gate
    match bound with
    | some nid => activateReady nid
    | none => return

end Novbot.Control
