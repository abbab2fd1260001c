/-!
# Control messages

The messages of the control stream, as `control.proto` defines them.  Fields
that no modelled function reads are left out: the capability list, the generation
and the installed skills of a `Register`, and the generations that a `Heartbeat`
and a pull report.

`Dispatch` and `DesiredSkills` carry one field more than the wire format: the
node they are for.  No modelled function reads it.  It names the row or the
request a frame was made for, so that statements can.
-/

namespace Novbot.Control

abbrev NodeId := String
abbrev RunId := String

/-! ## From the node -/

structure RegisterRequest where
  nodeId : NodeId
  hostname : String
  version : String
  bootstrapToken : String
  tags : List (String × String)
  skillAbi : String
  os : String
  arch : String
  deriving DecidableEq, Repr

structure ReportResultRequest where
  nodeId : NodeId
  runId : RunId
  specId : String
  status : String
  payloadJson : String
  observedAtUnixMs : Int
  deriving DecidableEq, Repr

structure InstalledSkill where
  name : String
  version : String
  sha256 : String
  state : String
  reason : String
  reasonDetail : String
  attempts : Int
  previousSha256 : List String
  deriving DecidableEq, Repr

structure SkillStateReport where
  nodeId : NodeId
  appliedGeneration : Int
  skills : List InstalledSkill
  deriving DecidableEq, Repr

inductive ClientBody where
  | register (req : RegisterRequest)
  | heartbeat (nodeId : NodeId)
  | pullConfig (nodeId : NodeId)
  | reportResult (req : ReportResultRequest)
  | ack (ofRequestId : String)
  | nodeReady (nodeId : NodeId) (configGeneration : Int)
  | pullSkills (nodeId : NodeId)
  | skillState (report : SkillStateReport)
  deriving DecidableEq, Repr

structure ClientMessage where
  requestId : String
  body : Option ClientBody
  deriving DecidableEq, Repr

/-! ## From the center -/

structure Dispatch where
  /-- The node of the row or request behind the message. -/
  forNode : NodeId
  runId : RunId
  specId : String
  paramsJson : String
  deriving DecidableEq, Repr

structure SkillRef where
  name : String
  version : String
  sha256 : String
  sizeBytes : Int
  abi : String
  capabilitiesSha256 : String
  signatureEnvelope : List UInt8
  fetchTicket : String
  deriving DecidableEq, Repr

structure SkillPolicy where
  maxConcurrentRuns : Int
  keepPreviousVersions : Int
  storeQuotaBytes : Int
  maxTimeoutMs : Int
  maxMemoryMb : Int
  deriving DecidableEq, Repr

structure DesiredSkills where
  /-- The node whose desired set this is. -/
  forNode : NodeId
  generation : Int
  skills : List SkillRef
  policy : SkillPolicy
  deriving DecidableEq, Repr

inductive ServerBody where
  | register (nodeId : NodeId) (accepted : Bool) (message : String)
  | heartbeat (ok : Bool) (centerConfigGeneration centerSkillSetGeneration : Int)
  | pullConfig (configGeneration : Int) (specsJson schedulesJson : String)
  | reportResult (accepted : Bool)
  | dispatch (d : Dispatch)
  | desiredSkills (desired : DesiredSkills)
  | ack (ofRequestId : String) (ok : Bool) (message : String)
  | error (code message : String)
  deriving DecidableEq, Repr

structure ServerMessage where
  requestId : String
  body : Option ServerBody
  deriving DecidableEq, Repr

/-- The node a `Dispatch` or a `DesiredSkills` is for. -/
def ServerMessage.forNode (msg : ServerMessage) : Option NodeId :=
  match msg.body with
  | some (.dispatch d) => some d.forNode
  | some (.desiredSkills desired) => some desired.forNode
  | _ => none

def ServerMessage.dispatch? (msg : ServerMessage) : Option Dispatch :=
  match msg.body with
  | some (.dispatch d) => some d
  | _ => none

theorem ServerMessage.forNode_of_dispatch (msg : ServerMessage) {d : Dispatch}
    (h : msg.dispatch? = some d) : msg.forNode = some d.forNode := by
  unfold dispatch? at h
  split at h
  · next d' hbody =>
    cases h
    simp only [forNode, hbody]
  · cases h

/-- The run a `Dispatch` is for, with its node. -/
def ServerMessage.run? (msg : ServerMessage) : Option (NodeId × RunId) :=
  msg.dispatch?.map fun d => (d.forNode, d.runId)

/-- `client_node_id`: the node a client message names.  `NodeReady` must not
bind a session. -/
def clientNodeId (msg : ClientMessage) : Option NodeId :=
  match msg.body with
  | some (.register req) => some req.nodeId
  | some (.heartbeat nodeId) => some nodeId
  | some (.pullConfig nodeId) => some nodeId
  | some (.reportResult req) => some req.nodeId
  | some (.pullSkills nodeId) => some nodeId
  | some (.skillState report) => some report.nodeId
  | some (.nodeReady _ _) => none
  | some (.ack _) => none
  | none => none

end Novbot.Control
