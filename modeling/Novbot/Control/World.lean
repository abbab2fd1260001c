import Novbot.Control.Dispatch
import Novbot.Control.Host
import Novbot.Lib.Machine

/-!
# The control plane as a machine

The shared state of the center and its nodes, what each operation does to it,
and the events of the environment.  The tasks are sessions and HTTP requests of
the center, and for each node its session task, its scheduler and its spool
flusher.

A stream has a link in each direction.  A link that is *up* carries what is
sent; a *lost* link takes sends and drops them, because its sender has not
noticed yet; a *closed* link fails them.  Links only get worse.  Losing a stream
cuts both directions at once and keeps a prefix of what was in transit.

The history of a task (`Loc`) holds its variables and what it did so far, as far
as statements need it.  `note` is the only place that extends it during a
program, and no operation of another task changes it.

Times are milliseconds of one clock, which the database, the center and the
nodes share.  Identifiers drawn by `Uuid::new_v4` are fresh: no earlier drawn or
given identifier is drawn again.
-/

namespace Novbot.Control

open Concurrent

/-! ## Tasks and their histories -/

inductive HostTask where
  | session
  | due
  | flush
  deriving DecidableEq, Repr

inductive Tid where
  | session (s : SessionId)
  | request (r : RequestId)
  | host (nodeId : NodeId) (task : HostTask)
  deriving DecidableEq, Repr

inductive Phase where
  | absent
  | open
  /-- The loop has ended. -/
  | left
  deriving DecidableEq, Repr

/-- Why a gate became ready. -/
inductive Reason where
  /-- The node acknowledged `acked` when the center's generation read `center`;
  `none` is a failed read. -/
  | acked (acked : Int) (center : Option Int)
  | deadline (due now : Nat)
  deriving DecidableEq, Repr

/-- A point in the life of a session that concerns repeated sends. -/
inductive Record where
  | registered (nodeId : NodeId)
  /-- A dispatch went out on the stream.  One from a claim keeps the mark that
  the claim replaced, one from the push channel has none. -/
  | sent (d : Dispatch) (claimed : Option (Option Nat))
  deriving DecidableEq, Repr

structure SessionLoc where
  phase : Phase
  bound : Option NodeId
  gate : ReadyGate
  /-- Registered in the hub under the bound node, and not unregistered since. -/
  active : Bool
  /-- Nodes with an accepted `Register`. -/
  accepted : List NodeId
  /-- Nodes named by any other message that binds. -/
  named : List NodeId
  /-- The message in hand. -/
  handling : Option ClientMessage
  /-- Runs whose results were stored for the message in hand. -/
  stored : List (NodeId × RunId)
  /-- Claimed rows that are not sent yet. -/
  hand : List ClaimedDispatch
  /-- The push message in hand. -/
  forward : Option ServerMessage
  /-- The deadline that the timer fired for. -/
  timer : Option Nat
  /-- The last read of a config generation in this turn and under this binding,
  which may have failed. -/
  generationRead : Option (Option Int)
  clockRead : Nat
  reason : Option Reason
  /-- Newest first. -/
  history : List Record
  deriving DecidableEq

def SessionLoc.fresh (timeout : Nat) (phase : Phase) : SessionLoc where
  phase := phase
  bound := none
  gate := .new timeout
  active := false
  accepted := []
  named := []
  handling := none
  stored := []
  hand := []
  forward := none
  timer := none
  generationRead := none
  clockRead := 0
  reason := none
  history := []

structure RequestLoc where
  started : Bool
  /-- Identifiers it drew. -/
  drawn : List String
  /-- Committed runs that were not sent yet, in order. -/
  unsent : List (NodeId × RunId)
  /-- Runs sent live whose rows are not marked yet. -/
  unmarked : List (NodeId × RunId)
  /-- The sender cloned from the hub, with the node it was registered for. -/
  sender : Option (NodeId × SessionId)
  committed : List (NodeId × RunId)
  queued : List (NodeId × RunId)
  live : List (NodeId × RunId)
  deriving DecidableEq

def RequestLoc.fresh : RequestLoc := ⟨false, [], [], [], none, [], [], []⟩

/-- A send is over: live, or not. -/
def RequestLoc.sent (loc : RequestLoc) (run : Option (NodeId × RunId)) (live : Bool) :
    RequestLoc :=
  { loc with
    sender := none
    unsent := loc.unsent.tail
    unmarked := if live then loc.unsent.head?.toList ++ loc.unmarked else loc.unmarked
    live := if live then run.toList ++ loc.live else loc.live }

structure HostLoc where
  outcomes : List ReportResultRequest
  duplicates : List RunId
  drained : List PendingReport
  deriving DecidableEq

structure Loc where
  session : SessionLoc
  request : RequestLoc
  host : HostLoc
  deriving DecidableEq

def Loc.fresh (timeout : Nat) (phase : Phase) : Loc :=
  ⟨.fresh timeout phase, .fresh, ⟨[], [], []⟩⟩

/-! ## What a task notes -/

def noteDb : (op : DbOp) → op.Reply → Loc → Loc
  | .registerNode req, .ok _, loc =>
    { loc with session := { loc.session with
        accepted := req.nodeId :: loc.session.accepted
        history := .registered req.nodeId :: loc.session.history } }
  | .configGeneration _, generation, loc =>
    { loc with session := { loc.session with generationRead := some generation } }
  | .insertResult row, true, loc =>
    { loc with session := { loc.session with
        stored := (row.nodeId, row.runId) :: loc.session.stored } }
  | .claimPendingDispatches _ _, some rows, loc =>
    { loc with session := { loc.session with hand := rows } }
  | .requeuePendingDispatches _, _, loc =>
    { loc with session := { loc.session with hand := [] } }
  | .enqueueDispatch nodeId runId _ _, true, loc =>
    { loc with request := { loc.request with queued := (nodeId, runId) :: loc.request.queued } }
  | .commitDispatch _ _ planned, true, loc =>
    { loc with request := { loc.request with
        unsent := planned, committed := planned ++ loc.request.committed } }
  | .markInFlight nodeId runId, true, loc =>
    { loc with request := { loc.request with
        unmarked := loc.request.unmarked.filter (· ≠ (nodeId, runId)) } }
  | _, _, loc => loc

def noteHub : (op : HubOp) → op.Reply → Loc → Loc
  | .register _, _, loc => { loc with session := { loc.session with active := true } }
  | .unregister _, _, loc => { loc with session := { loc.session with active := false } }
  | .sender nodeId, some tx, loc =>
    { loc with request := { loc.request with sender := some (nodeId, tx) } }
  | .sender _, none, loc => { loc with request := loc.request.sent none false }
  | .pushSend _ msg, live, loc => { loc with request := loc.request.sent msg.run? live }
  | _, _, loc => loc

/-- A send that succeeds takes its message out of the session's hands. -/
def noteSent (msg : ServerMessage) (loc : SessionLoc) : SessionLoc :=
  match msg.dispatch? with
  | none => { loc with forward := none }
  | some d =>
    if loc.forward.isSome then
      { loc with forward := none, history := .sent d none :: loc.history }
    else
      { loc with
        hand := loc.hand.tail
        history := .sent d (loc.hand.head?.map (·.replaced)) :: loc.history }

/-- The reason for opening the gate: the timer, or the bound node's `NodeReady`
in hand. -/
def openReason (loc : SessionLoc) : Option Reason :=
  match loc.timer, loc.handling.bind (·.body) with
  | some due, _ => some (.deadline due (max loc.clockRead due))
  | none, some (.nodeReady nodeId acked) =>
    if loc.bound = some nodeId then loc.generationRead.map (.acked acked) else none
  | none, _ => none

def noteSession : (op : SessionOp) → op.Reply → Loc → Loc
  | .streamSend msg, true, loc => { loc with session := noteSent msg loc.session }
  | .streamSend _, false, loc => { loc with session := { loc.session with forward := none } }
  | .bind nodeId gate, _, loc =>
    { loc with session := { loc.session with
        bound := some nodeId, gate := gate, active := false, generationRead := none
        reason := none } }
  | .setGate gate, _, loc =>
    { loc with session := { loc.session with gate := gate, reason := openReason loc.session } }
  | .leave, _, loc => { loc with session := { loc.session with phase := .left } }

def noteHost : (op : HostOp) → op.Reply → Loc → Loc
  | .seenInsert runId, false, loc =>
    { loc with host := { loc.host with duplicates := runId :: loc.host.duplicates } }
  | .writeEgress outcome, _, loc =>
    { loc with host := { loc.host with outcomes := outcome :: loc.host.outcomes } }
  | .spoolRead, some items, loc => { loc with host := { loc.host with drained := items } }
  | _, _, loc => loc

def note : (op : Op) → op.Reply → Loc → Loc
  | .db op, reply, loc => noteDb op reply loc
  | .hub op, reply, loc => noteHub op reply loc
  | .session op, reply, loc => noteSession op reply loc
  | .host op, reply, loc => noteHost op reply loc
  | .now, clock, loc => { loc with session := { loc.session with clockRead := clock } }
  | .newUuid, text, loc =>
    { loc with request := { loc.request with drawn := text :: loc.request.drawn } }
  | .request _, _, loc => loc

/-! ## The shared state -/

inductive Link where
  | up
  | lost
  | closed
  deriving DecidableEq, Repr

structure Stream where
  /-- Sent by the client and not yet handled. -/
  inbound : List ClientMessage
  /-- Written by the session and not yet received. -/
  wire : List ServerMessage
  push : List ServerMessage
  upLink : Link
  downLink : Link
  deriving DecidableEq, Repr

def Stream.new : Stream := ⟨[], [], [], .up, .up⟩

structure Host where
  seen : List RunId
  specs : List Spec
  configLoaded : Bool
  /-- `session_out`. -/
  out : Option SessionId
  /-- The stream the session task reads. -/
  inbound : Option SessionId
  spool : List PendingReport

def Host.new : Host := ⟨[], [], false, none, none, []⟩

structure World where
  db : Db
  hub : Hub
  streams : SessionId → Stream
  hosts : NodeId → Host
  clock : Nat
  /-- Identifiers drawn or given so far. -/
  issued : List String
  answers : RequestId → Option Answer
  /-- The outcomes that nodes ended runs with. -/
  egress : List ReportResultRequest
  /-- The session that bound a node last, by an accepted `Register` or otherwise. -/
  latest : NodeId → Option SessionId

def World.empty : World :=
  ⟨.empty, .new, fun _ => .new, fun _ => .new, 0, [], fun _ => none, [], fun _ => none⟩

/-- What an operation leaves open. -/
structure Choice where
  /-- A database or file operation fails, or a target is refused. -/
  fail : Bool
  text : String
  nodeIds : List NodeId
  status : String
  payload : Json

/-- No fault, no fresh name. -/
def Choice.plain : Choice := ⟨false, "", [], "ok", .null⟩

def Choice.fault (message : String) : Choice := ⟨true, message, [], "", .null⟩

def Choice.name (text : String) : Choice := ⟨false, text, [], "", .null⟩

abbrev System := Sys Op.Reply Tid Loc World

variable (setup : Setup)

/-! ## Operations -/

/-- A statement that fails or changes the tables. -/
def attempt (c : Choice) (db : Db) (change : Option Db) : Bool × Db :=
  match c.fail, change with
  | false, some db' => (true, db')
  | _, _ => (false, db)

def orFault {α : Type} (c : Choice) (value : α) : Except String α :=
  if c.fail then .error c.text else .ok value

def execDb (c : Choice) (clock : Nat) : (op : DbOp) → Db → op.Reply × Db
  | .registerNode req, db =>
    if c.fail then (.error c.text, db) else (.ok (), db.registerNode req.nodeId)
  | .configGeneration nodeId, db =>
    (if c.fail then none else some (db.configGeneration nodeId), db)
  | .skillGeneration nodeId, db => (if c.fail then none else some (db.skillGeneration nodeId), db)
  | .getConfig nodeId, db => (orFault c (db.configs nodeId), db)
  | .desiredRows nodeId, db => (orFault c (db.desired nodeId), db)
  | .signatureEnvelope _ _, db => (orFault c [], db)
  | .applyReport report, db =>
    match attempt c db (db.applyReport report) with
    | (true, db) => (.ok (), db)
    | (false, db) => (.error c.text, db)
  | .insertResult row, db => attempt c db (db.insertResult row)
  | .auditDenials _, db => (!c.fail, db)
  | .ackPendingDispatch nodeId runId, db => attempt c db (some (db.ackPendingDispatch nodeId runId))
  | .claimPendingDispatches nodeId cutoff, db =>
    if c.fail then (none, db)
    else
      let print := fun text => setup.json.print ((setup.json.parse text).getD (.obj []))
      let (rows, db) := db.claimPendingDispatches print nodeId cutoff clock
      (some rows, db)
  | .requeuePendingDispatches ids, db => attempt c db (some (db.requeuePendingDispatches ids))
  | .requeueInFlightForNode nodeId, db => attempt c db (some (db.requeueInFlightForNode nodeId))
  | .enqueueDispatch nodeId runId specId paramsJson, db =>
    attempt c db (db.enqueueDispatch nodeId runId specId paramsJson)
  | .commitDispatch specId paramsJson planned, db =>
    attempt c db (db.commitDispatch specId paramsJson planned)
  | .markInFlight nodeId runId, db => attempt c db (some (db.markInFlight nodeId runId clock))

/-- The send on a push channel.  Its receiver is the session task: while the
loop runs the message is queued; afterwards it is dropped, and the send fails
once the task is gone. -/
def pushSendTo (c : Choice) (phase : Phase) (msg : ServerMessage) (stream : Stream) :
    Bool × Stream :=
  match phase with
  | .open => (true, { stream with push := stream.push ++ [msg] })
  | _ => (!c.fail, stream)

def sendOn {α : Type} (link : Link) (queue : List α) (item : α) : Bool × List α :=
  match link with
  | .up => (true, queue ++ [item])
  | .lost => (true, queue)
  | .closed => (false, queue)

def World.setStream (w : World) (s : SessionId) (stream : Stream) : World :=
  { w with streams := Function.update w.streams s stream }

def World.setHost (w : World) (nodeId : NodeId) (host : Host) : World :=
  { w with hosts := Function.update w.hosts nodeId host }

def World.setLatest (w : World) (nodeId : NodeId) (s : SessionId) : World :=
  { w with latest := Function.update w.latest nodeId (some s) }

def execHub (t : Tid) (locs : Tid → Loc) (c : Choice) :
    (op : HubOp) → World → Option (op.Reply × World)
  | .register nodeId, w =>
    match t with
    | .session s => some ((), { w with hub := w.hub.register nodeId s })
    | _ => none
  | .unregister nodeId, w =>
    match t with
    | .session s => some ((), { w with hub := w.hub.unregister nodeId s })
    | _ => none
  | .evict nodeId, w =>
    match t with
    | .session s =>
      let w := { w with hub := w.hub.evict nodeId }
      -- A session that registers a node it is not bound to is the newest one of the node.
      some ((), if (locs t).session.bound = some nodeId then w else w.setLatest nodeId s)
    | _ => none
  | .isConnected nodeId, w => some (w.hub.isConnected nodeId, w)
  | .noteAbi nodeId abi, w => some ((), { w with hub := w.hub.noteAbi nodeId abi })
  | .skillAbi nodeId, w => some (w.hub.abi nodeId, w)
  | .issueTicket nodeId sha256, w =>
    if c.text ∈ w.issued then none
    else some (c.text, { w with
      issued := c.text :: w.issued
      hub := w.hub.issueTicket c.text nodeId sha256 w.clock })
  | .sender nodeId, w => some (w.hub.inner nodeId, w)
  | .pushSend tx msg, w =>
    let (sent, stream) := pushSendTo c (locs (.session tx)).session.phase msg (w.streams tx)
    some (sent, w.setStream tx stream)

def execSession (t : Tid) : (op : SessionOp) → World → Option (op.Reply × World)
  | .streamSend msg, w =>
    match t with
    | .session s =>
      let stream := w.streams s
      let (sent, wire) := sendOn stream.downLink stream.wire msg
      some (sent, w.setStream s { stream with wire })
    | _ => none
  | .bind nodeId _, w =>
    match t with
    | .session s => some ((), w.setLatest nodeId s)
    | _ => none
  | .setGate _, w => some ((), w)
  | .leave, w => some ((), w)

def execRequest (t : Tid) (c : Choice) : (op : RequestOp) → World → Option (op.Reply × World)
  | .checkSubmit, w => some (orFault c c.nodeIds, w)
  | .ensureProdConfirm _, w => some (orFault c (), w)
  | .storeResolution, w => some (!c.fail, w)
  | .respond answer, w =>
    match t with
    | .request r => some ((), { w with answers := Function.update w.answers r (some answer) })
    | _ => none

/-- The specs of a config text.  An entry needs an id; its kind is not modelled. -/
def parseSpecs (text : String) : Option (List Spec) := do
  let specs ← (setup.json.parse text).bind Json.asArray
  specs.mapM fun spec => do
    let id ← (spec.get "id").bind Json.asStr
    return ⟨id, (spec.get "params").getD .null⟩

def execHost (t : Tid) (c : Choice) (op : HostOp) (w : World) : Option (op.Reply × World) :=
  match t with
  | .host nodeId _ =>
    let host := w.hosts nodeId
    match op with
    | .sessionOut => some (host.out, w)
    | .clientSend tx msg =>
      let stream := w.streams tx
      let (sent, inbound) := sendOn stream.upLink stream.inbound msg
      some (sent, w.setStream tx { stream with inbound })
    | .seenInsert runId =>
      if runId ∈ host.seen then some (false, w)
      else some (true, w.setHost nodeId { host with seen := runId :: host.seen })
    | .findSpec specId =>
      if !host.configLoaded then some (.error "config_not_ready", w)
      else
        match host.specs.find? (·.id = specId) with
        | some spec => some (.ok spec, w)
        | none => some (.error "spec_not_found", w)
    | .applyConfig _ specsJson _ =>
      match c.fail, parseSpecs setup specsJson with
      | false, some specs => some (true, w.setHost nodeId { host with specs, configLoaded := true })
      | _, _ => some (false, w)
    | .executeSpec _ _ => some ((c.status, c.payload), w)
    | .writeEgress outcome => some ((), { w with egress := outcome :: w.egress })
    | .spoolAppend item =>
      if c.fail then some (false, w)
      else some (true, w.setHost nodeId { host with spool := host.spool ++ [item] })
    | .spoolRead => some (if c.fail then none else some host.spool, w)
    | .spoolClear =>
      some ((), if c.fail then w else w.setHost nodeId { host with spool := [] })
  | _ => none

def exec (t : Tid) (locs : Tid → Loc) (op : Op) (c : Choice) (w : World) :
    Option (op.Reply × World) :=
  match op with
  | .db op =>
    let (reply, db) := execDb setup c w.clock op w.db
    some (reply, { w with db })
  | .hub op => execHub t locs c op w
  | .session op => execSession t op w
  | .request op => execRequest t c op w
  | .host op => execHost setup t c op w
  | .newUuid =>
    if c.text ∈ w.issued then none else some (c.text, { w with issued := c.text :: w.issued })
  | .now => some (w.clock, w)

/-! ## Events -/

/-- What a request of the HTTP interface asks for. -/
inductive Command where
  | dispatchCommand (nodeId : NodeId) (body : DispatchBody)
  | pushSkillGroup (skills : List String)
  | dispatchTarget (body : DispatchRequest)
  /-- What follows a skill write: the nodes with outcome `pending`. -/
  | pushPending (nodeIds : List NodeId)

def Command.prog : Command → Prog Unit
  | .dispatchCommand nodeId body => Control.dispatchCommand setup nodeId body
  | .pushSkillGroup skills => Control.pushSkillGroup setup skills
  | .dispatchTarget body => Control.dispatchTarget setup body
  | .pushPending nodeIds => Control.pushPending nodeIds

/-- The identifiers a request brings along. -/
def Command.given : Command → List String
  | .dispatchCommand _ body => body.runId.toList
  | _ => []

inductive Event where
  | tick (ms : Nat)
  /-- A client opens a stream. -/
  | connect (s : SessionId)
  /-- A client that is no modelled node sends a message. -/
  | clientFrame (s : SessionId) (msg : ClientMessage)
  /-- The session takes the next message of the client. -/
  | frame (s : SessionId)
  | streamEnd (s : SessionId)
  /-- The session takes the next push message. -/
  | push (s : SessionId)
  | timer (s : SessionId)
  /-- The stream breaks.  What is kept of each direction still arrives. -/
  | lose (s : SessionId) (inbound wire : Nat)
  /-- The senders of a lost stream notice. -/
  | closeUp (s : SessionId)
  | closeDown (s : SessionId)
  | request (r : RequestId) (command : Command)
  /-- The HTTP client is gone and the request's task is dropped. -/
  | cancel (r : RequestId)
  | putConfig (nodeId : NodeId) (specsJson schedulesJson : String)
  /-- A skill write commits a desired set. -/
  | setDesired (nodeId : NodeId) (generation : Int) (rows : List DesiredRow)
  /-- A node opens a stream. -/
  | hostConnect (nodeId : NodeId) (s : SessionId)
  /-- The node takes the next message of the center. -/
  | hostFrame (nodeId : NodeId)
  | hostHangUp (nodeId : NodeId)
  | hostFlush (nodeId : NodeId)
  | hostDue (nodeId : NodeId) (specs : List Spec)
  /-- The node process stops and starts again. -/
  | hostRestart (nodeId : NodeId)

/-- The task starts a program, with a change of its history. -/
def start (sys : System) (t : Tid) (prog : Prog Unit) (change : Loc → Loc) : System :=
  { sys with threads := Function.update sys.threads t ⟨prog, change (sys.loc t)⟩ }

def mapWorld (sys : System) (f : World → World) : System := { sys with shared := f sys.shared }

/-- The session takes a message: it is in hand, and names its node. -/
def takeFrame (msg : ClientMessage) (loc : Loc) : Loc :=
  let named :=
    match msg.body with
    | some (.register _) => []
    | _ => (clientNodeId msg).toList
  { loc with session := { loc.session with
      handling := some msg, stored := [], timer := none, generationRead := none
      named := named ++ loc.session.named } }

def takePush (msg : ServerMessage) (loc : Loc) : Loc :=
  { loc with session := { loc.session with forward := some msg, handling := none, timer := none } }

def takeTimer (due : Nat) (loc : Loc) : Loc :=
  { loc with session := { loc.session with timer := some due, handling := none } }

def takeRequest (loc : Loc) : Loc := { loc with request := { loc.request with started := true } }

/-- The session waits in its loop. -/
def waiting (sys : System) (s : SessionId) : Bool :=
  sys.idle (.session s) && (sys.loc (.session s)).session.phase = .open

def cutStream (stream : Stream) (inbound wire : Nat) : Stream :=
  { stream with
    inbound := stream.inbound.take inbound
    wire := stream.wire.take wire
    upLink := if stream.upLink = .up then .lost else stream.upLink
    downLink := if stream.downLink = .up then .lost else stream.downLink }

def fireSession (sys : System) (s : SessionId) (loc : SessionLoc) : Event → Option System
  | .frame _ =>
    let stream := sys.shared.streams s
    match stream.inbound with
    | msg :: rest =>
      let sys := mapWorld sys (·.setStream s { stream with inbound := rest })
      some (start sys (.session s) (onFrame setup loc.bound loc.gate msg) (takeFrame msg))
    | [] => none
  | .streamEnd _ =>
    if (sys.shared.streams s).upLink = .up then none
    else some (start sys (.session s) (onStreamEnd loc.bound) id)
  | .push _ =>
    let stream := sys.shared.streams s
    match stream.push with
    | msg :: rest =>
      let sys := mapWorld sys (·.setStream s { stream with push := rest })
      some (start sys (.session s) (onPush loc.bound msg) (takePush msg))
    | [] => none
  | .timer _ =>
    match loc.gate.deadline with
    | some due =>
      if due ≤ sys.shared.clock then
        some (start sys (.session s) (onTimer loc.bound loc.gate due) (takeTimer due))
      else none
    | none => none
  | _ => none

/-- A new stream with a session task. -/
def openSession (sys : System) (s : SessionId) : Option System :=
  if (sys.loc (.session s)).session.phase = .absent then
    some (start (mapWorld sys (·.setStream s .new)) (.session s) (.done ())
      fun _ => .fresh setup.readyTimeout .open)
  else none

def fireHost (sys : System) (nodeId : NodeId) : Event → Option System
  | .hostConnect _ s =>
    let host := sys.shared.hosts nodeId
    if host.inbound = none && sys.idle (.host nodeId .session) then
      (openSession setup sys s).map fun sys =>
        start (mapWorld sys (·.setHost nodeId { host with out := some s, inbound := some s }))
          (.host nodeId .session) flushSpool id
    else none
  | .hostFrame _ =>
    match (sys.shared.hosts nodeId).inbound with
    | none => none
    | some s =>
      let stream := sys.shared.streams s
      match sys.idle (.host nodeId .session), stream.wire with
      | true, msg :: rest =>
        let sys := mapWorld sys (·.setStream s { stream with wire := rest })
        some (start sys (.host nodeId .session) (onServer setup nodeId msg) id)
      | _, _ => none
  | .hostHangUp _ =>
    let host := sys.shared.hosts nodeId
    if sys.idle (.host nodeId .session) then
      some (mapWorld sys (·.setHost nodeId { host with out := none, inbound := none }))
    else none
  | .hostFlush _ =>
    if sys.idle (.host nodeId .flush) then some (start sys (.host nodeId .flush) flushSpool id)
    else none
  | .hostDue _ specs =>
    if sys.idle (.host nodeId .due) then
      some (start sys (.host nodeId .due) (runDue setup nodeId specs) id)
    else none
  | .hostRestart _ =>
    let host := sys.shared.hosts nodeId
    let stop := fun sys task => start sys (.host nodeId task) (.done ()) id
    let sys := stop (stop (stop sys .session) .due) .flush
    some (mapWorld sys (·.setHost nodeId { Host.new with spool := host.spool }))
  | _ => none

def fire (event : Event) (sys : System) : Option System :=
  let onSession := fun s =>
    if waiting sys s then fireSession setup sys s (sys.loc (.session s)).session event else none
  match event with
  | .tick ms => some (mapWorld sys fun w => { w with clock := w.clock + ms })
  | .connect s => openSession setup sys s
  | .clientFrame s msg =>
    let stream := sys.shared.streams s
    let (_, inbound) := sendOn stream.upLink stream.inbound msg
    some (mapWorld sys (·.setStream s { stream with inbound }))
  | .frame s | .streamEnd s | .push s | .timer s => onSession s
  | .lose s inbound wire =>
    some (mapWorld sys fun w => w.setStream s (cutStream (w.streams s) inbound wire))
  | .closeUp s =>
    let stream := sys.shared.streams s
    if stream.upLink = .up then none
    else some (mapWorld sys (·.setStream s { stream with upLink := .closed }))
  | .closeDown s =>
    let stream := sys.shared.streams s
    if stream.downLink = .up then none
    else some (mapWorld sys (·.setStream s { stream with downLink := .closed }))
  | .request r command =>
    if sys.idle (.request r) && !(sys.loc (.request r)).request.started then
      let sys := mapWorld sys fun w => { w with issued := command.given ++ w.issued }
      some (start sys (.request r) (command.prog setup) takeRequest)
    else none
  | .cancel r => some (start sys (.request r) (.done ()) takeRequest)
  | .putConfig nodeId specsJson schedulesJson =>
    some (mapWorld sys fun w => { w with db := w.db.putConfig nodeId specsJson schedulesJson })
  | .setDesired nodeId generation rows =>
    some (mapWorld sys fun w => { w with db := { w.db with
      skillSets := Function.update w.db.skillSets nodeId (some generation)
      desired := Function.update w.db.desired nodeId rows } })
  | .hostConnect nodeId _ | .hostFrame nodeId | .hostHangUp nodeId | .hostFlush nodeId
  | .hostDue nodeId _ | .hostRestart nodeId => fireHost setup sys nodeId event

/-- The control plane. -/
def control : Machine Op.Reply Tid Loc World Choice Event where
  exec := exec setup
  note _ := note
  fire := fire setup

/-- Nothing has happened yet. -/
def initial : System :=
  ⟨World.empty, fun _ => ⟨.done (), .fresh setup.readyTimeout .absent⟩⟩

/-! ## Runs on fixed inputs -/

/-- A config text with one spec. -/
def sampleSpecs : String := "[\x7b\"id\":\"spec\"\x7d]"

/-- JSON as far as the runs on fixed inputs use it. -/
def sampleJson : Json.Codec where
  parse text :=
    if text = "[]" then some (.arr [])
    else if text = "\x7b\x7d" then some (.obj [])
    else if text = sampleSpecs then some (.arr [.obj [("id", .str "spec")]])
    else none
  print
    | .obj [] => "\x7b\x7d"
    | .obj [(key, .str value)] => "\x7b\"" ++ key ++ "\":\"" ++ value ++ "\"\x7d"
    | _ => "null"

/-- A deployment with a bootstrap token and the default timeout. -/
def sampleSetup : Setup := ⟨some "token", 120 * 1000, sampleJson, fun _ => true⟩

/-- Any move. -/
def anyMove (_ : System) (_ : Move Tid Choice Event) : Bool := true

/-- A session performs its next operations without faults. -/
def sessionActs (s : SessionId) (n : Nat) : List (Move Tid Choice Event) :=
  List.replicate n (.act (.session s) .plain)

/-- A client sends a message, and the session handles it in `n` operations. -/
def clientTurn (s : SessionId) (body : ClientBody) (n : Nat) : List (Move Tid Choice Event) :=
  [.event (.clientFrame s ⟨"", some body⟩), .event (.frame s)] ++ sessionActs s n

/-- A node registers with the token of `sampleSetup`: seven operations. -/
def registration (nodeId : NodeId) : ClientBody :=
  .register ⟨nodeId, "host", "1", "token", [], "", "", ""⟩

/-- A target dispatch to one node, up to the lookup of the node's sender. -/
def targetRequest (r : RequestId) (nodeId : NodeId) (runId : RunId) :
    List (Move Tid Choice Event) :=
  [.event (.request r (.dispatchTarget ⟨"spec", none⟩)),
    .act (.request r) ⟨false, "", [nodeId], "", .null⟩, .act (.request r) (.name runId),
    .act (.request r) .plain, .act (.request r) (.name (runId ++ "-request")),
    .act (.request r) .plain]

end Novbot.Control
