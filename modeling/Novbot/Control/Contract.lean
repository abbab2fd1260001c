import Novbot.Control.World

/-!
# What each task may do

The contract of the control plane: for each operation, who performs it and what
the history of the task says when it does.  `control_obeys` proves that every
program of the model meets it, once, by running through the programs.  The
statements about runs are then proved from the contract and from `exec` alone,
so a change of a program that keeps the contract leaves them alone.
-/

namespace Novbot.Control

open Concurrent

/-! ## The contract -/

inductive Kind where
  | session
  | request
  | host
  deriving DecidableEq

def Tid.kind : Tid → Kind
  | .session _ => .session
  | .request _ => .request
  | .host _ _ => .host

/-- The kind of task that performs the operation, where only one does. -/
def Op.owner : Op → Option Kind
  | .db (.registerNode _) => some .session
  | .db (.applyReport _) => some .session
  | .db (.insertResult _) => some .session
  | .db (.auditDenials _) => some .session
  | .db (.ackPendingDispatch _ _) => some .session
  | .db (.claimPendingDispatches _ _) => some .session
  | .db (.requeuePendingDispatches _) => some .session
  | .db (.requeueInFlightForNode _) => some .session
  | .db (.configGeneration _) => some .session
  | .db (.enqueueDispatch _ _ _ _) => some .request
  | .db (.commitDispatch _ _ _) => some .request
  | .db (.markInFlight _ _) => some .request
  | .db _ => none
  | .hub (.register _) => some .session
  | .hub (.unregister _) => some .session
  | .hub (.evict _) => some .session
  | .hub (.noteAbi _ _) => some .session
  | .hub (.sender _) => some .request
  | .hub (.pushSend _ _) => some .request
  | .hub _ => none
  | .session _ => some .session
  | .request _ => some .request
  | .host _ => some .host
  | .newUuid => none
  | .now => none

/-- The task may perform the operation at all. -/
def Op.ownedBy (op : Op) (t : Tid) : Bool := op.owner.all (· == t.kind)

theorem Tid.kind_session {t : Tid} (h : t.kind = .session) : ∃ s, t = .session s := by
  cases t with
  | session s => exact ⟨s, rfl⟩
  | request r => cases h
  | host nodeId task => cases h

theorem Tid.kind_request {t : Tid} (h : t.kind = .request) : ∃ r, t = .request r := by
  cases t with
  | session s => cases h
  | request r => exact ⟨r, rfl⟩
  | host nodeId task => cases h

/-- The body of the message in hand. -/
def SessionLoc.body (loc : SessionLoc) : Option ClientBody := loc.handling.bind (·.body)

/-- A node id the session may be bound to. -/
def SessionLoc.presented (loc : SessionLoc) (nodeId : NodeId) : Prop :=
  nodeId ∈ loc.accepted ∨ nodeId ∈ loc.named

/-- A reason under which a gate may open. -/
def Reason.valid (gate : ReadyGate) : Reason → Prop
  | .acked generation center => center.getD 0 ≤ generation
  | .deadline due now => gate.boundAt.map (· + gate.timeout) = some due ∧ due ≤ now

/-- The row in the session's hands that a dispatch is made from. -/
def madeFrom (d : Dispatch) (row : ClaimedDispatch) : Prop :=
  d = ⟨row.nodeId, row.runId, row.specId, row.paramsJson⟩

/-- A message a session may write: one it forwards, or one of its own.  Its own
dispatches are claimed rows of the bound node behind a ready gate. -/
def mayWrite (msg : ServerMessage) (loc : SessionLoc) : Prop :=
  loc.forward = some msg ∨
    loc.forward = none ∧
      (∀ d, msg.dispatch? = some d → loc.gate.ready = true ∧
        ∃ row rows, loc.hand = row :: rows ∧ madeFrom d row ∧ loc.bound = some row.nodeId) ∧
      (msg.dispatch? = none → ∀ nodeId, msg.forNode = some nodeId → nodeId ∈ loc.named)

abbrev preDb (op : DbOp) (loc : Loc) : Prop :=
  match op with
  | .configGeneration nodeId =>
    ∀ m acked, loc.session.body = some (.nodeReady m acked) → loc.session.bound = some nodeId
  | .registerNode req => loc.session.phase = .open ∧ loc.session.body = some (.register req)
  | .applyReport report => loc.session.body = some (.skillState report)
  | .insertResult row =>
    ∃ req observedAt, loc.session.body = some (.reportResult req) ∧ row = resultRow req observedAt
  | .ackPendingDispatch nodeId runId => (nodeId, runId) ∈ loc.session.stored
  | .claimPendingDispatches nodeId cutoff =>
    loc.session.phase = .open ∧ loc.session.bound = some nodeId ∧
      loc.session.gate.ready = true ∧ loc.session.hand = [] ∧
      cutoff = loc.session.clockRead - pendingDispatchAckTimeout
  | .requeuePendingDispatches ids => ids = loc.session.hand.map (·.id)
  | .requeueInFlightForNode nodeId =>
    loc.session.hand = [] ∧ (nodeId ∈ loc.session.accepted ∧ loc.session.phase = .open ∨
      loc.session.bound = some nodeId ∧ loc.session.active = false)
  | .commitDispatch _ _ planned =>
    loc.request.unsent = [] ∧ loc.request.unmarked = [] ∧ loc.request.committed = [] ∧
      loc.request.drawn = (planned.map (·.2)).reverse
  | .markInFlight nodeId runId => (nodeId, runId) ∈ loc.request.unmarked
  | _ => True

/-- The message of a target's send is the next committed run. -/
def sendsNext (loc : RequestLoc) (nodeId : NodeId) (msg : ServerMessage) : Prop :=
  ∀ run rest, loc.unsent = run :: rest → msg.run? = some run ∧ run.1 = nodeId

abbrev preHub (op : HubOp) (loc : Loc) : Prop :=
  match op with
  | .register nodeId =>
    loc.session.phase = .open ∧ loc.session.bound = some nodeId ∧
      loc.session.gate.ready = true ∧ loc.session.active = false
  | .unregister nodeId => loc.session.bound = some nodeId
  | .evict nodeId => loc.session.phase = .open ∧ nodeId ∈ loc.session.accepted
  | .noteAbi nodeId _ => nodeId ∈ loc.session.accepted
  | .sender _ => loc.request.sender = none
  | .pushSend tx msg =>
    ∃ nodeId, loc.request.sender = some (nodeId, tx) ∧ msg.forNode = some nodeId ∧
      sendsNext loc.request nodeId msg
  | _ => True

variable (setup : Setup)

abbrev preSession (op : SessionOp) (loc : SessionLoc) : Prop :=
  match op with
  | .streamSend msg => loc.phase = .open ∧ mayWrite msg loc
  | .bind nodeId gate =>
    loc.phase = .open ∧ loc.presented nodeId ∧ loc.active = false ∧ loc.hand = [] ∧
      loc.forward = none ∧ loc.bound ≠ some nodeId ∧ gate = ⟨setup.readyTimeout, some loc.clockRead, false⟩
  | .setGate gate =>
    loc.gate.ready = false ∧ gate = loc.gate.opened ∧
      ∃ reason, openReason loc = some reason ∧ reason.valid loc.gate
  | .leave => loc.phase = .open

/-- The node may report this: its own outcome, a duplicate, or a spooled item. -/
def reportable (nodeId : NodeId) (loc : HostLoc) (report : ReportResultRequest) : Prop :=
  report ∈ loc.outcomes ∨
    (∃ d observedAt, report = duplicateReport setup nodeId d observedAt ∧
      d.runId ∈ loc.duplicates) ∨
    ∃ item ∈ loc.drained, item.report = report

abbrev preHost (t : Tid) (op : HostOp) (loc : HostLoc) : Prop :=
  match t, op with
  | .host nodeId _, .clientSend _ msg =>
    ∀ report, msg.body = some (.reportResult report) → reportable setup nodeId loc report
  | .host nodeId _, .spoolAppend item => reportable setup nodeId loc item.report
  | .host nodeId _, .writeEgress outcome => outcome.nodeId = nodeId
  | _, _ => True

abbrev preRequest (op : RequestOp) (loc : RequestLoc) : Prop :=
  match op with
  | .respond (.accepted runs _) => ∀ run ∈ runs,
    (run.nodeId, run.runId) ∈ loc.committed ∨ (run.nodeId, run.runId) ∈ loc.queued ∨
      (run.nodeId, run.runId) ∈ loc.live
  | _ => True

abbrev preOp (t : Tid) (op : Op) (loc : Loc) : Prop :=
  match op with
  | .db op => preDb op loc
  | .hub op => preHub op loc
  | .session op => preSession setup op loc.session
  | .request op => preRequest op loc.request
  | .host op => preHost setup t op loc.host
  | .newUuid => True
  | .now => True

/-- Claimed rows are rows of the node, unmarked or marked before the cutoff. -/
abbrev givesOp (op : Op) (reply : op.Reply) : Prop :=
  match op, reply with
  | .db (.claimPendingDispatches nodeId cutoff), some rows =>
    ∀ row ∈ rows, row.nodeId = nodeId ∧ ∀ mark, row.replaced = some mark → mark < cutoff
  | _, _ => True

/-- A session between two turns of its loop. -/
structure SessionLoc.Settled (loc : SessionLoc) : Prop where
  hand : loc.hand = []
  forward : loc.forward = none
  /-- Without a node there is no deadline and nothing is ready. -/
  unbound : loc.bound = none → loc.gate = .new setup.readyTimeout ∧ loc.active = false
  bound : ∀ nodeId, loc.bound = some nodeId → loc.presented nodeId ∧
    (∃ t, loc.gate.boundAt = some t) ∧ loc.gate.ready = loc.active

/-- Where a task rests: a session in its loop is settled, and a request that did
not start has no history. -/
structure restAt (t : Tid) (loc : Loc) : Prop where
  session : t.kind = .session → loc.session.phase = .open → loc.session.Settled setup
  request : t.kind = .request → loc.request.started = false → loc.request = .fresh

def terms : Machine.Terms Op.Reply Tid Loc where
  pre t op loc := op.ownedBy t = true ∧ preOp setup t op loc
  gives _ op _ reply := givesOp op reply
  rest := restAt setup

/-- The program of the task meets the contract, and ends in `post`. -/
abbrev Prog.Meets {α : Type} (t : Tid) (prog : Prog α) (post : α → Loc → Prop) (loc : Loc) : Prop :=
  Program.Meets ((terms setup).contract (control setup) t) prog post loc

variable {setup} {t : Tid} {loc : Loc} {α β : Type}

/-- An operation and what follows: who performs it, when, and each reply. -/
theorem Prog.Meets.call {op : Op} {f : op.Reply → Prog α} {post : α → Loc → Prop}
    (howner : op.ownedBy t = true) (hpre : preOp setup t op loc)
    (hnext : ∀ reply, givesOp op reply → Prog.Meets setup t (f reply) post (note op reply loc)) :
    Prog.Meets setup t (Program.call op >>= f) post loc :=
  ⟨⟨howner, hpre⟩, hnext⟩

/-- An operation at the end of a program. -/
theorem Prog.Meets.last {op : Op} {post : op.Reply → Loc → Prop}
    (howner : op.ownedBy t = true) (hpre : preOp setup t op loc)
    (hpost : ∀ reply, givesOp op reply → post reply (note op reply loc)) :
    Prog.Meets setup t (Program.call op) post loc :=
  ⟨⟨howner, hpre⟩, hpost⟩

/-! ## The session's own values -/

/-- What no step of a handler changes. -/
structure SessionLoc.Same (loc loc' : SessionLoc) : Prop where
  phase : loc'.phase = loc.phase
  bound : loc'.bound = loc.bound
  gate : loc'.gate = loc.gate
  active : loc'.active = loc.active
  handling : loc'.handling = loc.handling
  hand : loc'.hand = loc.hand
  forward : loc'.forward = loc.forward
  timer : loc'.timer = loc.timer
  named : loc'.named = loc.named
  accepted : ∀ nodeId, nodeId ∈ loc.accepted → nodeId ∈ loc'.accepted

theorem SessionLoc.Same.refl (loc : SessionLoc) : loc.Same loc :=
  ⟨rfl, rfl, rfl, rfl, rfl, rfl, rfl, rfl, rfl, fun _ h => h⟩

theorem same_configGeneration (nodeId : NodeId) (generation : Option Int) (loc : Loc) :
    loc.session.Same (note (.db (.configGeneration nodeId)) generation loc).session :=
  ⟨rfl, rfl, rfl, rfl, rfl, rfl, rfl, rfl, rfl, fun _ h => h⟩

theorem same_now (clock : Nat) (loc : Loc) : loc.session.Same (note .now clock loc).session :=
  ⟨rfl, rfl, rfl, rfl, rfl, rfl, rfl, rfl, rfl, fun _ h => h⟩

theorem SessionLoc.Same.trans {a b c : SessionLoc} (h : a.Same b) (h' : b.Same c) : a.Same c :=
  ⟨h'.phase.trans h.phase, h'.bound.trans h.bound, h'.gate.trans h.gate,
    h'.active.trans h.active, h'.handling.trans h.handling, h'.hand.trans h.hand,
    h'.forward.trans h.forward, h'.timer.trans h.timer, h'.named.trans h.named,
    fun n hn => h'.accepted n (h.accepted n hn)⟩

end Novbot.Control
