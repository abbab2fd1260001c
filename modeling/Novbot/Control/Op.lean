import Novbot.Control.Db
import Novbot.Control.Hub
import Novbot.Control.ReadyGate
import Novbot.Lib.Json
import Novbot.Lib.Program

/-!
# Operations of the control plane

One operation for each thing a task of the center or of a node does that other
tasks can see: a statement or transaction on the database, an access to the hub,
a send on a channel, a step of the node's shared state or its spool file.
Between two operations a task computes on its own values only.

Two kinds of operation record a local step instead: the session's assignments
to its `bound_node` and `gate` variables (`bind`, `setGate`, `leave`), and the
answer of a request (`respond`).

A database operation that can fail replies `none`, `false` or an error.  The
functions at the end give each operation the name it has in the source.
-/

namespace Novbot.Control

open Concurrent

abbrev RequestId := Nat

/-- A node's probe definition.  `kind` and `threshold` are not modelled. -/
structure Spec where
  id : String
  params : Json

/-- A report in the node's hands or its spool. -/
structure PendingReport where
  report : ReportResultRequest
  attempts : Nat
  deriving DecidableEq, Repr

/-- A run that a request accepted, with how it was delivered: `live` or
`queued`. -/
structure DispatchRun where
  nodeId : NodeId
  runId : RunId
  delivered : String
  deriving DecidableEq, Repr

/-- The answer of a dispatch request.  A node is in `warnings` when its config
lacks the spec. -/
inductive Answer where
  | accepted (runs : List DispatchRun) (warnings : List NodeId)
  | refused (message : String)
  deriving DecidableEq, Repr

inductive DbOp where
  | registerNode (req : RegisterRequest)
  | configGeneration (nodeId : NodeId)
  | skillGeneration (nodeId : NodeId)
  | getConfig (nodeId : NodeId)
  | desiredRows (nodeId : NodeId)
  | signatureEnvelope (nodeId : NodeId) (row : DesiredRow)
  | applyReport (report : SkillStateReport)
  | insertResult (row : ResultRow)
  | auditDenials (row : ResultRow)
  | ackPendingDispatch (nodeId : NodeId) (runId : RunId)
  | claimPendingDispatches (nodeId : NodeId) (cutoff : Nat)
  | requeuePendingDispatches (ids : List Nat)
  | requeueInFlightForNode (nodeId : NodeId)
  | enqueueDispatch (nodeId : NodeId) (runId : RunId) (specId paramsJson : String)
  | commitDispatch (specId paramsJson : String) (planned : List (NodeId × RunId))
  | markInFlight (nodeId : NodeId) (runId : RunId)

inductive HubOp where
  | register (nodeId : NodeId)
  | unregister (nodeId : NodeId)
  | evict (nodeId : NodeId)
  | isConnected (nodeId : NodeId)
  | noteAbi (nodeId : NodeId) (skillAbi : String)
  | skillAbi (nodeId : NodeId)
  | issueTicket (nodeId : NodeId) (sha256 : String)
  /-- The clone of the sender that `send` makes under the read lock. -/
  | sender (nodeId : NodeId)
  /-- The send on the cloned sender. -/
  | pushSend (tx : SessionId) (msg : ServerMessage)

inductive SessionOp where
  | streamSend (msg : ServerMessage)
  /-- `bound_node = Some(node_id)` with a new gate. -/
  | bind (nodeId : NodeId) (gate : ReadyGate)
  | setGate (gate : ReadyGate)
  /-- The session loop ends. -/
  | leave

inductive RequestOp where
  /-- `check_submit`: the frozen node list, or why the target is refused. -/
  | checkSubmit
  | ensureProdConfirm (nodeId : NodeId)
  | storeResolution
  | respond (answer : Answer)

inductive HostOp where
  | sessionOut
  | clientSend (tx : SessionId) (msg : ClientMessage)
  /-- `seen_dispatch_runs.insert`: true when the run is new. -/
  | seenInsert (runId : RunId)
  | findSpec (specId : String)
  | applyConfig (generation : Int) (specsJson schedulesJson : String)
  | executeSpec (spec : Spec) (runId : RunId)
  /-- The outcome a run ended with, as `write_egress_result` writes it. -/
  | writeEgress (outcome : ReportResultRequest)
  | spoolAppend (item : PendingReport)
  | spoolRead
  | spoolClear

inductive Op where
  | db (op : DbOp)
  | hub (op : HubOp)
  | session (op : SessionOp)
  | request (op : RequestOp)
  | host (op : HostOp)
  | newUuid
  /-- The clock, as `Utc::now()` or `Instant::now()` read it. -/
  | now

@[reducible] def DbOp.Reply : DbOp → Type
  | .registerNode _ => Except String Unit
  | .configGeneration _ => Option Int
  | .skillGeneration _ => Option Int
  | .getConfig _ => Except String (Option NodeConfig)
  | .desiredRows _ => Except String (List DesiredRow)
  | .signatureEnvelope _ _ => Except String (List UInt8)
  | .applyReport _ => Except String Unit
  | .insertResult _ => Bool
  | .auditDenials _ => Bool
  | .ackPendingDispatch _ _ => Bool
  | .claimPendingDispatches _ _ => Option (List ClaimedDispatch)
  | .requeuePendingDispatches _ => Bool
  | .requeueInFlightForNode _ => Bool
  | .enqueueDispatch _ _ _ _ => Bool
  | .commitDispatch _ _ _ => Bool
  | .markInFlight _ _ => Bool

@[reducible] def HubOp.Reply : HubOp → Type
  | .register _ => Unit
  | .unregister _ => Unit
  | .evict _ => Unit
  | .isConnected _ => Bool
  | .noteAbi _ _ => Unit
  | .skillAbi _ => Option String
  | .issueTicket _ _ => String
  | .sender _ => Option SessionId
  | .pushSend _ _ => Bool

@[reducible] def SessionOp.Reply : SessionOp → Type
  | .streamSend _ => Bool
  | .bind _ _ => Unit
  | .setGate _ => Unit
  | .leave => Unit

@[reducible] def RequestOp.Reply : RequestOp → Type
  | .checkSubmit => Except String (List NodeId)
  | .ensureProdConfirm _ => Except String Unit
  | .storeResolution => Bool
  | .respond _ => Unit

@[reducible] def HostOp.Reply : HostOp → Type
  | .sessionOut => Option SessionId
  | .clientSend _ _ => Bool
  | .seenInsert _ => Bool
  | .findSpec _ => Except String Spec
  | .applyConfig _ _ _ => Bool
  | .executeSpec _ _ => String × Json
  | .writeEgress _ => Unit
  | .spoolAppend _ => Bool
  | .spoolRead => Option (List PendingReport)
  | .spoolClear => Unit

@[reducible] def Op.Reply : Op → Type
  | .db op => op.Reply
  | .hub op => op.Reply
  | .session op => op.Reply
  | .request op => op.Reply
  | .host op => op.Reply
  | .newUuid => String
  | .now => Nat

/-- A task of the center or of a node. -/
abbrev Prog (α : Type) := Program Op.Reply α

/-! ## The operations by name -/

namespace Prog

def registerNode (req : RegisterRequest) : Prog (Except String Unit) :=
  Program.call (Op.db (.registerNode req))

def configGeneration (nodeId : NodeId) : Prog (Option Int) :=
  Program.call (Op.db (.configGeneration nodeId))

def skillGeneration (nodeId : NodeId) : Prog (Option Int) :=
  Program.call (Op.db (.skillGeneration nodeId))

def getConfig (nodeId : NodeId) : Prog (Except String (Option NodeConfig)) :=
  Program.call (Op.db (.getConfig nodeId))

def desiredRows (nodeId : NodeId) : Prog (Except String (List DesiredRow)) :=
  Program.call (Op.db (.desiredRows nodeId))

def signatureEnvelope (nodeId : NodeId) (row : DesiredRow) : Prog (Except String (List UInt8)) :=
  Program.call (Op.db (.signatureEnvelope nodeId row))

def applyReport (report : SkillStateReport) : Prog (Except String Unit) :=
  Program.call (Op.db (.applyReport report))

def insertResult (row : ResultRow) : Prog Bool := Program.call (Op.db (.insertResult row))

def auditDenials (row : ResultRow) : Prog Bool := Program.call (Op.db (.auditDenials row))

def ackPendingDispatch (nodeId : NodeId) (runId : RunId) : Prog Bool :=
  Program.call (Op.db (.ackPendingDispatch nodeId runId))

def claimPendingDispatches (nodeId : NodeId) (cutoff : Nat) :
    Prog (Option (List ClaimedDispatch)) :=
  Program.call (Op.db (.claimPendingDispatches nodeId cutoff))

def requeuePendingDispatches (ids : List Nat) : Prog Bool :=
  Program.call (Op.db (.requeuePendingDispatches ids))

def requeueInFlightForNode (nodeId : NodeId) : Prog Bool :=
  Program.call (Op.db (.requeueInFlightForNode nodeId))

def enqueueDispatch (nodeId : NodeId) (runId : RunId) (specId paramsJson : String) : Prog Bool :=
  Program.call (Op.db (.enqueueDispatch nodeId runId specId paramsJson))

def commitDispatch (specId paramsJson : String) (planned : List (NodeId × RunId)) : Prog Bool :=
  Program.call (Op.db (.commitDispatch specId paramsJson planned))

def markInFlight (nodeId : NodeId) (runId : RunId) : Prog Bool :=
  Program.call (Op.db (.markInFlight nodeId runId))

def hubRegister (nodeId : NodeId) : Prog Unit := Program.call (Op.hub (.register nodeId))

def hubUnregister (nodeId : NodeId) : Prog Unit := Program.call (Op.hub (.unregister nodeId))

def hubEvict (nodeId : NodeId) : Prog Unit := Program.call (Op.hub (.evict nodeId))

def isConnected (nodeId : NodeId) : Prog Bool := Program.call (Op.hub (.isConnected nodeId))

def noteAbi (nodeId : NodeId) (skillAbi : String) : Prog Unit :=
  Program.call (Op.hub (.noteAbi nodeId skillAbi))

def skillAbi (nodeId : NodeId) : Prog (Option String) := Program.call (Op.hub (.skillAbi nodeId))

def issueTicket (nodeId : NodeId) (sha256 : String) : Prog String :=
  Program.call (Op.hub (.issueTicket nodeId sha256))

def hubSender (nodeId : NodeId) : Prog (Option SessionId) := Program.call (Op.hub (.sender nodeId))

def pushSend (tx : SessionId) (msg : ServerMessage) : Prog Bool :=
  Program.call (Op.hub (.pushSend tx msg))

def streamSend (msg : ServerMessage) : Prog Bool := Program.call (Op.session (.streamSend msg))

def bindNode (nodeId : NodeId) (gate : ReadyGate) : Prog Unit :=
  Program.call (Op.session (.bind nodeId gate))

def setGate (gate : ReadyGate) : Prog Unit := Program.call (Op.session (.setGate gate))

def leave : Prog Unit := Program.call (Op.session .leave)

def checkSubmit : Prog (Except String (List NodeId)) := Program.call (Op.request .checkSubmit)

def ensureProdConfirm (nodeId : NodeId) : Prog (Except String Unit) :=
  Program.call (Op.request (.ensureProdConfirm nodeId))

def storeResolution : Prog Bool := Program.call (Op.request .storeResolution)

def respond (answer : Answer) : Prog Unit := Program.call (Op.request (.respond answer))

def sessionOut : Prog (Option SessionId) := Program.call (Op.host .sessionOut)

def clientSend (tx : SessionId) (msg : ClientMessage) : Prog Bool :=
  Program.call (Op.host (.clientSend tx msg))

def seenInsert (runId : RunId) : Prog Bool := Program.call (Op.host (.seenInsert runId))

def findSpec (specId : String) : Prog (Except String Spec) := Program.call (Op.host (.findSpec specId))

def applyConfig (generation : Int) (specsJson schedulesJson : String) : Prog Bool :=
  Program.call (Op.host (.applyConfig generation specsJson schedulesJson))

def executeSpec (spec : Spec) (runId : RunId) : Prog (String × Json) :=
  Program.call (Op.host (.executeSpec spec runId))

def writeEgress (outcome : ReportResultRequest) : Prog Unit :=
  Program.call (Op.host (.writeEgress outcome))

def spoolAppend (item : PendingReport) : Prog Bool := Program.call (Op.host (.spoolAppend item))

def spoolRead : Prog (Option (List PendingReport)) := Program.call (Op.host .spoolRead)

def spoolClear : Prog Unit := Program.call (Op.host .spoolClear)

def newUuid : Prog String := Program.call Op.newUuid

def now : Prog Nat := Program.call Op.now

end Prog

end Novbot.Control
