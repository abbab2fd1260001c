import Novbot.Control.Obeys

/-!
# What one move does

Inversion lemmas for moves.  `Fired` lists what each event does to the shared
state and to the histories, with its guards.  `RouteStep` lists what an operation
does to the way a node is reached: the hub's senders, who bound a node last, and
the session's own binding.  The frame lemmas at the end say which operations
leave a part of the shared state alone.
-/

namespace Novbot.Control

open Concurrent

variable {setup : Setup} {sys sys' : System} {s : SessionId} {t : Tid} {loc : Loc}
  {locs : Tid → Loc} {c : Choice} {w w' : World}

/-! ## The histories of a system -/

/-- The history of a session. -/
def sessionOf (locs : Tid → Loc) (s : SessionId) : SessionLoc := (locs (.session s)).session

theorem sessionOf_update (locs : Tid → Loc) (t : Tid) (loc : Loc) (s : SessionId) :
    sessionOf (Function.update locs t loc) s =
      if t = .session s then loc.session else sessionOf locs s := by
  unfold sessionOf
  by_cases h : t = .session s
  · subst h
    simp
  · rw [if_neg h, Function.update_of_ne (Ne.symm h)]

theorem sessionOf_update_self (locs : Tid → Loc) (s : SessionId) (loc : Loc) :
    sessionOf (Function.update locs (.session s) loc) s = loc.session := by
  rw [sessionOf_update, if_pos rfl]

theorem sessionOf_update_ne (locs : Tid → Loc) {s s' : SessionId} (loc : Loc) (h : s' ≠ s) :
    sessionOf (Function.update locs (.session s) loc) s' = sessionOf locs s' := by
  rw [sessionOf_update, if_neg]
  rintro ⟨⟩
  exact h rfl

/-- A property of every session after a session moved. -/
theorem forall_sessionOf_update {P : SessionId → SessionLoc → Prop} {s : SessionId} :
    (∀ s', P s' (sessionOf (Function.update locs (.session s) loc) s')) ↔
      P s loc.session ∧ ∀ s', s' ≠ s → P s' (sessionOf locs s') := by
  constructor
  · intro h
    refine ⟨sessionOf_update_self locs s loc ▸ h s, fun s' hs => ?_⟩
    exact sessionOf_update_ne locs loc hs ▸ h s'
  · rintro ⟨hself, hothers⟩ s'
    by_cases hs : s' = s
    · subst hs
      rw [sessionOf_update_self]
      exact hself
    · rw [sessionOf_update_ne locs loc hs]
      exact hothers s' hs

/-- The history of a request. -/
def requestOf (locs : Tid → Loc) (r : RequestId) : RequestLoc := (locs (.request r)).request

theorem requestOf_update (locs : Tid → Loc) (t : Tid) (loc : Loc) (r : RequestId) :
    requestOf (Function.update locs t loc) r =
      if t = .request r then loc.request else requestOf locs r := by
  unfold requestOf
  by_cases h : t = .request r
  · subst h
    simp
  · rw [if_neg h, Function.update_of_ne (Ne.symm h)]

/-! ## Next operations -/

/-- The next operation of the thread passes the test. -/
def nextIs (test : Op → Bool) (sys : System) (t : Tid) : Bool :=
  match (sys.threads t).prog with
  | .done _ => false
  | .perform op _ => test op

theorem nextIs_of_about {test : Op → Bool} (h : sys.about t op) : nextIs test sys t = test op := by
  obtain ⟨next, hp⟩ := h
  simp only [nextIs, hp]

theorem about_of_nextIs {test : Op → Bool} (h : nextIs test sys t = true) :
    ∃ op, sys.about t op ∧ test op = true := by
  unfold nextIs at h
  split at h
  · cases h
  · next op next hp => exact ⟨op, ⟨next, hp⟩, h⟩

def Op.isPushSend : Op → Bool
  | .hub (.pushSend _ _) => true
  | _ => false

/-! ## Events -/

inductive Fired (setup : Setup) (sys : System) : Event → World → (Tid → Loc) → Prop where
  | tick (ms : Nat) :
    Fired setup sys (.tick ms) { sys.shared with clock := sys.shared.clock + ms } sys.loc
  | connect (s : SessionId) (hphase : (sys.loc (.session s)).session.phase = .absent) :
    Fired setup sys (.connect s) (sys.shared.setStream s .new)
      (Function.update sys.loc (.session s) (.fresh setup.readyTimeout .open))
  | clientFrame (s : SessionId) (msg : ClientMessage) :
    Fired setup sys (.clientFrame s msg)
      (sys.shared.setStream s { sys.shared.streams s with
        inbound := (sendOn (sys.shared.streams s).upLink (sys.shared.streams s).inbound msg).2 })
      sys.loc
  | frame (s : SessionId) (msg : ClientMessage) (rest : List ClientMessage)
    (hwait : waiting sys s = true) (hin : (sys.shared.streams s).inbound = msg :: rest) :
    Fired setup sys (.frame s)
      (sys.shared.setStream s { sys.shared.streams s with inbound := rest })
      (Function.update sys.loc (.session s) (takeFrame msg (sys.loc (.session s))))
  | streamEnd (s : SessionId) (hwait : waiting sys s = true) :
    Fired setup sys (.streamEnd s) sys.shared sys.loc
  | push (s : SessionId) (msg : ServerMessage) (rest : List ServerMessage)
    (hwait : waiting sys s = true) (hpush : (sys.shared.streams s).push = msg :: rest) :
    Fired setup sys (.push s)
      (sys.shared.setStream s { sys.shared.streams s with push := rest })
      (Function.update sys.loc (.session s) (takePush msg (sys.loc (.session s))))
  | timer (s : SessionId) (due : Nat) (hwait : waiting sys s = true)
    (hdue : (sys.loc (.session s)).session.gate.deadline = some due)
    (hle : due ≤ sys.shared.clock) :
    Fired setup sys (.timer s) sys.shared
      (Function.update sys.loc (.session s) (takeTimer due (sys.loc (.session s))))
  | lose (s : SessionId) (inbound wire : Nat) :
    Fired setup sys (.lose s inbound wire)
      (sys.shared.setStream s (cutStream (sys.shared.streams s) inbound wire)) sys.loc
  | closeUp (s : SessionId) :
    Fired setup sys (.closeUp s)
      (sys.shared.setStream s { sys.shared.streams s with upLink := .closed }) sys.loc
  | closeDown (s : SessionId) :
    Fired setup sys (.closeDown s)
      (sys.shared.setStream s { sys.shared.streams s with downLink := .closed }) sys.loc
  | request (r : RequestId) (command : Command)
    (hnew : (sys.loc (.request r)).request = .fresh) :
    Fired setup sys (.request r command)
      { sys.shared with issued := command.given ++ sys.shared.issued }
      (Function.update sys.loc (.request r) (takeRequest (sys.loc (.request r))))
  | cancel (r : RequestId) :
    Fired setup sys (.cancel r) sys.shared
      (Function.update sys.loc (.request r) (takeRequest (sys.loc (.request r))))
  | putConfig (nodeId : NodeId) (specsJson schedulesJson : String) :
    Fired setup sys (.putConfig nodeId specsJson schedulesJson)
      { sys.shared with db := sys.shared.db.putConfig nodeId specsJson schedulesJson } sys.loc
  | setDesired (nodeId : NodeId) (generation : Int) (rows : List DesiredRow) :
    Fired setup sys (.setDesired nodeId generation rows)
      { sys.shared with db := { sys.shared.db with
        skillSets := Function.update sys.shared.db.skillSets nodeId (some generation)
        desired := Function.update sys.shared.db.desired nodeId rows } } sys.loc
  | hostConnect (nodeId : NodeId) (s : SessionId)
    (hphase : (sys.loc (.session s)).session.phase = .absent) :
    Fired setup sys (.hostConnect nodeId s)
      ((sys.shared.setStream s .new).setHost nodeId
        { sys.shared.hosts nodeId with out := some s, inbound := some s })
      (Function.update sys.loc (.session s) (.fresh setup.readyTimeout .open))
  | hostFrame (nodeId : NodeId) (s : SessionId) (msg : ServerMessage) (rest : List ServerMessage)
    (hwire : (sys.shared.streams s).wire = msg :: rest) :
    Fired setup sys (.hostFrame nodeId)
      (sys.shared.setStream s { sys.shared.streams s with wire := rest }) sys.loc
  | hostHangUp (nodeId : NodeId) :
    Fired setup sys (.hostHangUp nodeId)
      (sys.shared.setHost nodeId { sys.shared.hosts nodeId with out := none, inbound := none })
      sys.loc
  | hostFlush (nodeId : NodeId) : Fired setup sys (.hostFlush nodeId) sys.shared sys.loc
  | hostDue (nodeId : NodeId) (specs : List Spec) :
    Fired setup sys (.hostDue nodeId specs) sys.shared sys.loc
  | hostRestart (nodeId : NodeId) :
    Fired setup sys (.hostRestart nodeId)
      (sys.shared.setHost nodeId { Host.new with spool := (sys.shared.hosts nodeId).spool })
      sys.loc

@[simp] theorem mapWorld_loc (f : World → World) : (mapWorld sys f).loc = sys.loc := rfl

@[simp] theorem mapWorld_shared (f : World → World) : (mapWorld sys f).shared = f sys.shared := rfl

@[simp] theorem start_shared (prog : Prog Unit) (change : Loc → Loc) :
    (start sys t prog change).shared = sys.shared := rfl

@[simp] theorem start_loc (prog : Prog Unit) (change : Loc → Loc) :
    (start sys t prog change).loc = Function.update sys.loc t (change (sys.loc t)) := by
  funext t'
  by_cases h : t' = t
  · subst h
    simp [start, Sys.loc]
  · simp [start, Sys.loc, h]

theorem start_id_loc (prog : Prog Unit) : (start sys t prog id).loc = sys.loc := by simp

theorem openSession_eq (h : openSession setup sys s = some sys') :
    (sys.loc (.session s)).session.phase = .absent ∧
      sys'.shared = sys.shared.setStream s .new ∧
      sys'.loc = Function.update sys.loc (.session s) (.fresh setup.readyTimeout .open) := by
  unfold openSession at h
  split at h
  · next hphase =>
    cases h
    refine ⟨hphase, rfl, ?_⟩
    rw [start_loc]
    rfl
  · cases h

theorem fireSession_cases {e : Event} (hwait : waiting sys s = true)
    (he : e = .frame s ∨ e = .streamEnd s ∨ e = .push s ∨ e = .timer s)
    (h : fireSession setup sys s (sys.loc (.session s)).session e = some sys') :
    Fired setup sys e sys'.shared sys'.loc := by
  rcases he with rfl | rfl | rfl | rfl
  · simp only [fireSession] at h
    split at h
    · next msg rest hin =>
      cases h
      rw [start_loc, start_shared]
      exact .frame s msg rest hwait hin
    · cases h
  · simp only [fireSession] at h
    split at h
    · cases h
    · cases h
      rw [start_id_loc, start_shared]
      exact .streamEnd s hwait
  · simp only [fireSession] at h
    split at h
    · next msg rest hpush =>
      cases h
      rw [start_loc, start_shared]
      exact .push s msg rest hwait hpush
    · cases h
  · simp only [fireSession] at h
    split at h
    · next due hdue =>
      split at h
      · next hle =>
        cases h
        rw [start_loc, start_shared]
        exact .timer s due hwait hdue hle
      · cases h
    · cases h

theorem fireHost_cases {nodeId : NodeId} {e : Event}
    (he : (∃ s, e = .hostConnect nodeId s) ∨ e = .hostFrame nodeId ∨ e = .hostHangUp nodeId ∨
      e = .hostFlush nodeId ∨ (∃ specs, e = .hostDue nodeId specs) ∨ e = .hostRestart nodeId)
    (h : fireHost setup sys nodeId e = some sys') : Fired setup sys e sys'.shared sys'.loc := by
  rcases he with ⟨s, rfl⟩ | rfl | rfl | rfl | ⟨specs, rfl⟩ | rfl
  · simp only [fireHost] at h
    split at h
    · obtain ⟨mid, hmid, rfl⟩ := Option.map_eq_some_iff.mp h
      obtain ⟨hphase, hshared, hloc⟩ := openSession_eq hmid
      rw [start_id_loc, start_shared, mapWorld_loc, mapWorld_shared, hshared, hloc]
      exact .hostConnect nodeId s hphase
    · cases h
  · simp only [fireHost] at h
    split at h
    · cases h
    · next s _ =>
      split at h
      · next msg rest _ hwire =>
        cases h
        rw [start_id_loc, start_shared]
        exact .hostFrame nodeId s msg rest hwire
      · cases h
  · simp only [fireHost] at h
    split at h
    · cases h
      exact .hostHangUp nodeId
    · cases h
  · simp only [fireHost] at h
    split at h
    · cases h
      rw [start_id_loc, start_shared]
      exact .hostFlush nodeId
    · cases h
  · simp only [fireHost] at h
    split at h
    · cases h
      rw [start_id_loc, start_shared]
      exact .hostDue nodeId specs
    · cases h
  · cases h
    rw [mapWorld_loc, mapWorld_shared]
    simp only [start_id_loc]
    exact .hostRestart nodeId

/-- What an event that takes place does. -/
theorem fire_cases {e : Event} (hs : Sound setup sys) (h : fire setup e sys = some sys') :
    Fired setup sys e sys'.shared sys'.loc := by
  have hsession : ∀ s e, e = .frame s ∨ e = .streamEnd s ∨ e = .push s ∨ e = .timer s →
      (if waiting sys s then fireSession setup sys s (sys.loc (.session s)).session e
        else none) = some sys' → Fired setup sys e sys'.shared sys'.loc := by
    intro s e he h
    split at h
    · next hwait => exact fireSession_cases hwait he h
    · cases h
  cases e with
  | tick ms => cases h; exact .tick ms
  | connect s =>
    obtain ⟨hphase, hshared, hloc⟩ := openSession_eq h
    rw [hshared, hloc]
    exact .connect s hphase
  | clientFrame s msg => cases h; exact .clientFrame s msg
  | frame s => exact hsession s _ (.inl rfl) h
  | streamEnd s => exact hsession s _ (.inr (.inl rfl)) h
  | push s => exact hsession s _ (.inr (.inr (.inl rfl))) h
  | timer s => exact hsession s _ (.inr (.inr (.inr rfl))) h
  | lose s inbound wire => cases h; exact .lose s inbound wire
  | closeUp s =>
    simp only [fire] at h
    split at h
    · cases h
    · cases h; exact .closeUp s
  | closeDown s =>
    simp only [fire] at h
    split at h
    · cases h
    · cases h; exact .closeDown s
  | request r command =>
    simp only [fire] at h
    split at h
    · next hidle =>
      simp only [Bool.and_eq_true, Bool.not_eq_true'] at hidle
      cases h
      rw [start_loc, start_shared]
      exact .request r command ((hs.rest hidle.1).request rfl hidle.2)
    · cases h
  | cancel r =>
    cases h
    rw [start_loc, start_shared]
    exact .cancel r
  | putConfig nodeId specsJson schedulesJson => cases h; exact .putConfig _ _ _
  | setDesired nodeId generation rows => cases h; exact .setDesired _ _ _
  | hostConnect nodeId s => exact fireHost_cases (.inl ⟨s, rfl⟩) h
  | hostFrame nodeId => exact fireHost_cases (.inr (.inl rfl)) h
  | hostHangUp nodeId => exact fireHost_cases (.inr (.inr (.inl rfl))) h
  | hostFlush nodeId => exact fireHost_cases (.inr (.inr (.inr (.inl rfl)))) h
  | hostDue nodeId specs => exact fireHost_cases (.inr (.inr (.inr (.inr (.inl ⟨specs, rfl⟩))))) h
  | hostRestart nodeId => exact fireHost_cases (.inr (.inr (.inr (.inr (.inr rfl))))) h

/-! ## What a node cannot touch -/

/-- The parts of the shared state that belong to the center. -/
structure World.SameCenter (w w' : World) : Prop where
  db : w'.db = w.db
  hub : w'.hub = w.hub
  latest : w'.latest = w.latest
  answers : w'.answers = w.answers
  issued : w'.issued = w.issued
  clock : w'.clock = w.clock
  push : ∀ s, (w'.streams s).push = (w.streams s).push
  wire : ∀ s, (w'.streams s).wire = (w.streams s).wire

theorem World.SameCenter.refl (w : World) : w.SameCenter w :=
  ⟨rfl, rfl, rfl, rfl, rfl, rfl, fun _ => rfl, fun _ => rfl⟩

theorem World.SameCenter.setHost (w : World) (nodeId : NodeId) (host : Host) :
    w.SameCenter (w.setHost nodeId host) :=
  ⟨rfl, rfl, rfl, rfl, rfl, rfl, fun _ => rfl, fun _ => rfl⟩

theorem setStream_streams (w : World) (s s' : SessionId) (stream : Stream) :
    (w.setStream s stream).streams s' = if s' = s then stream else w.streams s' := by
  simp [World.setStream, Function.update_apply]

theorem execHost_keeps {op : HostOp} {reply : op.Reply}
    (h : execHost setup t c op w = some (reply, w')) : w.SameCenter w' := by
  cases t with
  | session s => cases h
  | request r => cases h
  | host nodeId task =>
    simp only [execHost] at h
    split at h
    · cases h; exact .refl w
    · cases h
      refine ⟨rfl, rfl, rfl, rfl, rfl, rfl, fun s => ?_, fun s => ?_⟩ <;>
        rw [setStream_streams] <;> split <;> simp_all
    · split at h
      · cases h; exact .refl w
      · cases h; exact .setHost _ _ _
    · split at h
      · cases h; exact .refl w
      · split at h <;> cases h <;> exact .refl w
    · split at h
      · cases h; exact .setHost _ _ _
      · cases h; exact .refl w
    · cases h; exact .refl w
    · cases h
      exact ⟨rfl, rfl, rfl, rfl, rfl, rfl, fun _ => rfl, fun _ => rfl⟩
    · split at h
      · cases h; exact .refl w
      · cases h; exact .setHost _ _ _
    · cases h; exact .refl w
    · simp only [Option.some.injEq, Prod.mk.injEq] at h
      obtain ⟨-, rfl⟩ := h
      split
      · exact .refl w
      · exact .setHost _ _ _

/-! ## How a node is reached -/

/-- The session's binding is as before. -/
structure SessionLoc.SameRoute (loc loc' : SessionLoc) : Prop where
  phase : loc'.phase = loc.phase
  bound : loc'.bound = loc.bound
  gate : loc'.gate = loc.gate
  active : loc'.active = loc.active

theorem SessionLoc.SameRoute.refl (loc : SessionLoc) : loc.SameRoute loc := ⟨rfl, rfl, rfl, rfl⟩

theorem noteDb_route (op : DbOp) (reply : op.Reply) (loc : Loc) :
    loc.session.SameRoute (noteDb op reply loc).session := by
  unfold noteDb
  split <;> exact ⟨rfl, rfl, rfl, rfl⟩

theorem noteHost_session (op : HostOp) (reply : op.Reply) (loc : Loc) :
    (noteHost op reply loc).session = loc.session := by
  unfold noteHost
  split <;> rfl

theorem noteSent_route (msg : ServerMessage) (loc : SessionLoc) :
    loc.SameRoute (noteSent msg loc) := by
  unfold noteSent
  split
  · exact ⟨rfl, rfl, rfl, rfl⟩
  · split <;> exact ⟨rfl, rfl, rfl, rfl⟩

/-- The operation concerns how a node is reached. -/
def Op.routes : Op → Bool
  | .hub (.register _) | .hub (.unregister _) | .hub (.evict _) => true
  | .session (.bind _ _) | .session (.setGate _) | .session .leave => true
  | _ => false

/-- What an operation does to the hub's senders, to who bound a node last, and
to the binding of the task. -/
inductive RouteStep (t : Tid) (locs : Tid → Loc) (w : World) : Op → Loc → World → Prop where
  | register (s : SessionId) (nodeId : NodeId) (w' : World) (hs : t = .session s)
    (hinner : w'.hub.inner = Function.update w.hub.inner nodeId (some s))
    (hlatest : w'.latest = w.latest) :
    RouteStep t locs w (.hub (.register nodeId))
      { locs t with session := { (locs t).session with active := true } } w'
  | unregister (s : SessionId) (nodeId : NodeId) (w' : World) (hs : t = .session s)
    (hhub : w'.hub = w.hub.unregister nodeId s) (hlatest : w'.latest = w.latest) :
    RouteStep t locs w (.hub (.unregister nodeId))
      { locs t with session := { (locs t).session with active := false } } w'
  | evict (s : SessionId) (nodeId : NodeId) (w' : World) (hs : t = .session s)
    (hinner : w'.hub.inner = Function.update w.hub.inner nodeId none)
    (hlatest : w'.latest = if (locs t).session.bound = some nodeId then w.latest
      else Function.update w.latest nodeId (some s)) :
    RouteStep t locs w (.hub (.evict nodeId)) (locs t) w'
  | bind (s : SessionId) (nodeId : NodeId) (gate : ReadyGate) (w' : World) (hs : t = .session s)
    (hhub : w'.hub = w.hub)
    (hlatest : w'.latest = Function.update w.latest nodeId (some s)) :
    RouteStep t locs w (.session (.bind nodeId gate))
      { locs t with session := { (locs t).session with
        bound := some nodeId, gate := gate, active := false, generationRead := none
        reason := none } } w'
  | setGate (gate : ReadyGate) (reason : Option Reason) :
    RouteStep t locs w (.session (.setGate gate))
      { locs t with session := { (locs t).session with gate := gate, reason := reason } } w
  | leave :
    RouteStep t locs w (.session .leave)
      { locs t with session := { (locs t).session with phase := .left } } w
  | other (op : Op) (loc' : Loc) (w' : World) (hop : op.routes = false) (hinner : w'.hub.inner = w.hub.inner)
    (hlatest : w'.latest = w.latest) (hloc : (locs t).session.SameRoute loc'.session) :
    RouteStep t locs w op loc' w'

theorem exec_route {op : Op} {reply : op.Reply}
    (h : exec setup t locs op c w = some (reply, w')) :
    RouteStep t locs w op (note op reply (locs t)) w' := by
  cases op with
  | db op =>
    simp only [exec, Option.some.injEq, Prod.mk.injEq] at h
    obtain ⟨-, rfl⟩ := h
    exact .other _ _ _ rfl rfl rfl (noteDb_route op reply _)
  | hub op =>
    cases op with
    | register nodeId =>
      cases t with
      | session s => cases h; exact .register s nodeId _ rfl rfl rfl
      | request r => cases h
      | host n task => cases h
    | unregister nodeId =>
      cases t with
      | session s => cases h; exact .unregister s nodeId _ rfl rfl rfl
      | request r => cases h
      | host n task => cases h
    | evict nodeId =>
      cases t with
      | session s =>
        simp only [exec, execHub, Option.some.injEq, Prod.mk.injEq, true_and] at h
        subst h
        refine .evict s nodeId _ rfl ?_ ?_
        · split <;> rfl
        · split <;> rfl
      | request r => cases h
      | host n task => cases h
    | isConnected nodeId => cases h; exact .other _ _ _ rfl rfl rfl (.refl _)
    | noteAbi nodeId abi => cases h; exact .other _ _ _ rfl rfl rfl (.refl _)
    | skillAbi nodeId => cases h; exact .other _ _ _ rfl rfl rfl (.refl _)
    | issueTicket nodeId sha256 =>
      simp only [exec, execHub] at h
      split at h
      · cases h
      · cases h; exact .other _ _ _ rfl rfl rfl (.refl _)
    | sender nodeId =>
      simp only [exec, execHub, Option.some.injEq, Prod.mk.injEq] at h
      obtain ⟨-, rfl⟩ := h
      cases reply <;> exact .other _ _ _ rfl rfl rfl (.refl _)
    | pushSend tx msg =>
      simp only [exec, execHub, Option.some.injEq, Prod.mk.injEq] at h
      obtain ⟨-, rfl⟩ := h
      exact .other _ _ _ rfl rfl rfl (.refl _)
  | session op =>
    cases op with
    | streamSend msg =>
      cases t with
      | session s =>
        simp only [exec, execSession, Option.some.injEq, Prod.mk.injEq] at h
        obtain ⟨-, rfl⟩ := h
        refine .other _ _ _ rfl rfl rfl ?_
        cases reply with
        | true => exact noteSent_route msg _
        | false => exact ⟨rfl, rfl, rfl, rfl⟩
      | request r => cases h
      | host n task => cases h
    | bind nodeId gate =>
      cases t with
      | session s => cases h; exact .bind s nodeId gate _ rfl rfl rfl
      | request r => cases h
      | host n task => cases h
    | setGate gate => cases h; exact .setGate gate _
    | leave => cases h; exact .leave
  | request op =>
    refine .other _ _ _ rfl ?_ ?_ (.refl _) <;> cases op with
    | checkSubmit => cases h; rfl
    | ensureProdConfirm nodeId => cases h; rfl
    | storeResolution => cases h; rfl
    | respond answer =>
      cases t with
      | request r => cases h; rfl
      | session s => cases h
      | host n task => cases h
  | host op =>
    have hsame : (locs t).session.SameRoute (noteHost op reply (locs t)).session := by
      rw [noteHost_session]
      exact .refl _
    refine .other _ _ _ rfl ?_ ?_ hsame
    · exact congrArg Hub.inner (execHost_keeps h).hub
    · exact (execHost_keeps h).latest
  | newUuid =>
    simp only [exec] at h
    split at h
    · cases h
    · cases h; exact .other _ _ _ rfl rfl rfl (.refl _)
  | now => cases h; exact .other _ _ _ rfl rfl rfl ⟨rfl, rfl, rfl, rfl⟩

/-! ## What a session keeps -/

/-- No operation takes back what a session was told, and the messages in hand
are those of its turn. -/
structure SessionLoc.Keeps (loc loc' : SessionLoc) : Prop where
  accepted : ∀ nodeId, nodeId ∈ loc.accepted → nodeId ∈ loc'.accepted
  named : loc'.named = loc.named
  handling : loc'.handling = loc.handling
  timer : loc'.timer = loc.timer
  forward : loc'.forward = loc.forward ∨ loc'.forward = none

theorem SessionLoc.Keeps.refl (loc : SessionLoc) : loc.Keeps loc :=
  ⟨fun _ h => h, rfl, rfl, rfl, .inl rfl⟩

theorem SessionLoc.Keeps.presented {l l' : SessionLoc} (h : l.Keeps l') {nodeId : NodeId}
    (hn : l.presented nodeId) : l'.presented nodeId := by
  rcases hn with hn | hn
  · exact .inl (h.accepted nodeId hn)
  · exact .inr (h.named ▸ hn)

theorem noteSent_keeps (msg : ServerMessage) (loc : SessionLoc) :
    loc.Keeps (noteSent msg loc) := by
  unfold noteSent
  split
  · exact ⟨fun _ h => h, rfl, rfl, rfl, .inr rfl⟩
  · split
    · exact ⟨fun _ h => h, rfl, rfl, rfl, .inr rfl⟩
    · exact ⟨fun _ h => h, rfl, rfl, rfl, .inl rfl⟩

theorem note_keeps (op : Op) (reply : op.Reply) (loc : Loc) :
    loc.session.Keeps (note op reply loc).session := by
  cases op with
  | db op =>
    show loc.session.Keeps (noteDb op reply loc).session
    unfold noteDb
    split
    · exact ⟨fun _ h => .tail _ h, rfl, rfl, rfl, .inl rfl⟩
    all_goals exact ⟨fun _ h => h, rfl, rfl, rfl, .inl rfl⟩
  | hub op =>
    show loc.session.Keeps (noteHub op reply loc).session
    unfold noteHub
    split <;> exact ⟨fun _ h => h, rfl, rfl, rfl, .inl rfl⟩
  | session op =>
    show loc.session.Keeps (noteSession op reply loc).session
    unfold noteSession
    split
    · exact noteSent_keeps _ _
    · exact ⟨fun _ h => h, rfl, rfl, rfl, .inr rfl⟩
    all_goals exact ⟨fun _ h => h, rfl, rfl, rfl, .inl rfl⟩
  | host op =>
    show loc.session.Keeps (noteHost op reply loc).session
    rw [noteHost_session]
    exact .refl _
  | request op => exact .refl _
  | newUuid => exact .refl _
  | now => exact ⟨fun _ h => h, rfl, rfl, rfl, .inl rfl⟩

/-- Only a `Register` adds to the nodes a session was accepted for. -/
theorem note_accepted {op : Op} {reply : op.Reply} {nodeId : NodeId}
    (h : nodeId ∈ (note op reply loc).session.accepted) :
    nodeId ∈ loc.session.accepted ∨ ∃ req, op = .db (.registerNode req) := by
  cases op with
  | db op =>
    replace h : nodeId ∈ (noteDb op reply loc).session.accepted := h
    unfold noteDb at h
    split at h
    · exact .inr ⟨_, rfl⟩
    all_goals exact .inl h
  | hub op =>
    replace h : nodeId ∈ (noteHub op reply loc).session.accepted := h
    unfold noteHub at h
    split at h <;> exact .inl h
  | session op =>
    replace h : nodeId ∈ (noteSession op reply loc).session.accepted := h
    unfold noteSession noteSent at h
    split at h
    · split at h
      · exact .inl h
      · split at h <;> exact .inl h
    all_goals exact .inl h
  | host op =>
    replace h : nodeId ∈ (noteHost op reply loc).session.accepted := h
    rw [noteHost_session] at h
    exact .inl h
  | request op => exact .inl h
  | newUuid => exact .inl h
  | now => exact .inl h

/-! ## Push channels -/

/-- An operation leaves the push channels alone, or sends on one whose session
runs. -/
theorem exec_push {op : Op} {reply : op.Reply} (h : exec setup t locs op c w = some (reply, w')) :
    (∀ s, (w'.streams s).push = (w.streams s).push) ∨
      ∃ tx msg, op = .hub (.pushSend tx msg) ∧ (locs (.session tx)).session.phase = .open ∧
        ∀ s, (w'.streams s).push =
          if s = tx then (w.streams tx).push ++ [msg] else (w.streams s).push := by
  cases op with
  | db op =>
    simp only [exec, Option.some.injEq, Prod.mk.injEq] at h
    obtain ⟨-, rfl⟩ := h
    exact .inl fun _ => rfl
  | hub op =>
    cases op with
    | pushSend tx msg =>
      simp only [exec, execHub, Option.some.injEq, Prod.mk.injEq] at h
      obtain ⟨-, rfl⟩ := h
      unfold pushSendTo
      split
      · next hphase =>
        refine .inr ⟨tx, msg, rfl, hphase, fun s => ?_⟩
        rw [setStream_streams]
        split <;> rfl
      · left
        intro s
        rw [setStream_streams]
        split
        · next hs => rw [hs]
        · rfl
    | register nodeId | unregister nodeId =>
      cases t <;> cases h
      exact .inl fun _ => rfl
    | evict nodeId =>
      cases t with
      | session s =>
        simp only [exec, execHub, Option.some.injEq, Prod.mk.injEq, true_and] at h
        subst h
        split <;> exact .inl fun _ => rfl
      | request r => cases h
      | host n task => cases h
    | issueTicket nodeId sha256 =>
      simp only [exec, execHub] at h
      split at h
      · cases h
      · cases h; exact .inl fun _ => rfl
    | sender nodeId =>
      simp only [exec, execHub, Option.some.injEq, Prod.mk.injEq] at h
      obtain ⟨-, rfl⟩ := h
      exact .inl fun _ => rfl
    | isConnected nodeId | noteAbi nodeId abi | skillAbi nodeId =>
      cases h; exact .inl fun _ => rfl
  | session op =>
    left
    cases op with
    | streamSend msg =>
      cases t with
      | session s =>
        simp only [exec, execSession, Option.some.injEq, Prod.mk.injEq] at h
        obtain ⟨-, rfl⟩ := h
        intro s'
        rw [setStream_streams]
        split
        · next hs => rw [hs]
        · rfl
      | request r => cases h
      | host n task => cases h
    | bind nodeId gate => cases t <;> cases h; exact fun _ => rfl
    | setGate gate | leave => cases h; exact fun _ => rfl
  | request op =>
    left
    cases op with
    | respond answer => cases t <;> cases h; exact fun _ => rfl
    | checkSubmit | ensureProdConfirm nodeId | storeResolution => cases h; exact fun _ => rfl
  | host op => exact .inl (execHost_keeps h).push
  | newUuid =>
    simp only [exec] at h
    split at h
    · cases h
    · cases h; exact .inl fun _ => rfl
  | now => cases h; exact .inl fun _ => rfl

/-- Events only take messages out of push channels. -/
theorem Fired.push_mem {e : Event} (h : Fired setup sys e w' locs) {s : SessionId}
    {msg : ServerMessage} (hmsg : msg ∈ (w'.streams s).push) :
    msg ∈ (sys.shared.streams s).push := by
  cases h with
  | connect s' | hostConnect nodeId s' =>
    replace hmsg : msg ∈ ((sys.shared.setStream s' .new).streams s).push := hmsg
    rw [setStream_streams] at hmsg
    split at hmsg
    · cases hmsg
    · exact hmsg
  | push s' msg' rest hwait hpush =>
    rw [setStream_streams] at hmsg
    split at hmsg
    · next hs =>
      rw [hs, hpush]
      exact .tail _ hmsg
    · exact hmsg
  | clientFrame s' msg' | frame s' msg' rest | lose s' inbound wire | closeUp s' | closeDown s'
  | hostFrame nodeId s' msg' rest =>
    rw [setStream_streams] at hmsg
    split at hmsg
    · next hs =>
      rw [hs]
      exact hmsg
    · exact hmsg
  | _ => exact hmsg

/-! ## Clocks and generations -/

def Op.isDb : Op → Bool
  | .db _ => true
  | _ => false

/-- The clock stands still, only the database's operations touch the tables, and
only an answer answers. -/
theorem exec_frame {op : Op} {reply : op.Reply} (h : exec setup t locs op c w = some (reply, w')) :
    w'.clock = w.clock ∧ (op.isDb = false → w'.db = w.db) ∧
      (w'.answers = w.answers ∨ ∃ r answer, t = .request r ∧ op = .request (.respond answer) ∧
        w'.answers = Function.update w.answers r (some answer)) := by
  cases op with
  | db op =>
    simp only [exec, Option.some.injEq, Prod.mk.injEq] at h
    obtain ⟨-, rfl⟩ := h
    exact ⟨rfl, fun hop => (by cases hop), .inl rfl⟩
  | hub op =>
    cases op with
    | pushSend tx msg | sender nodeId =>
      simp only [exec, execHub, Option.some.injEq, Prod.mk.injEq] at h
      obtain ⟨-, rfl⟩ := h
      exact ⟨rfl, fun _ => rfl, .inl rfl⟩
    | register nodeId | unregister nodeId =>
      cases t <;> cases h
      exact ⟨rfl, fun _ => rfl, .inl rfl⟩
    | evict nodeId =>
      cases t with
      | session s =>
        simp only [exec, execHub, Option.some.injEq, Prod.mk.injEq, true_and] at h
        subst h
        split <;> exact ⟨rfl, fun _ => rfl, .inl rfl⟩
      | request r => cases h
      | host n task => cases h
    | issueTicket nodeId sha256 =>
      simp only [exec, execHub] at h
      split at h <;> cases h
      exact ⟨rfl, fun _ => rfl, .inl rfl⟩
    | isConnected nodeId | noteAbi nodeId abi | skillAbi nodeId =>
      cases h
      exact ⟨rfl, fun _ => rfl, .inl rfl⟩
  | session op =>
    cases op with
    | streamSend msg =>
      cases t with
      | session s =>
        simp only [exec, execSession, Option.some.injEq, Prod.mk.injEq] at h
        obtain ⟨-, rfl⟩ := h
        exact ⟨rfl, fun _ => rfl, .inl rfl⟩
      | request r => cases h
      | host n task => cases h
    | bind nodeId gate =>
      cases t <;> cases h
      exact ⟨rfl, fun _ => rfl, .inl rfl⟩
    | setGate gate | leave =>
      cases h
      exact ⟨rfl, fun _ => rfl, .inl rfl⟩
  | request op =>
    cases op with
    | respond answer =>
      cases t with
      | request r =>
        cases h
        exact ⟨rfl, fun _ => rfl, .inr ⟨r, answer, rfl, rfl, rfl⟩⟩
      | session s => cases h
      | host n task => cases h
    | checkSubmit | ensureProdConfirm nodeId | storeResolution =>
      cases h
      exact ⟨rfl, fun _ => rfl, .inl rfl⟩
  | host op =>
    obtain ⟨hdb, -, -, hanswers, -, hclock, -, -⟩ := execHost_keeps h
    exact ⟨hclock, fun _ => hdb, .inl hanswers⟩
  | newUuid =>
    simp only [exec] at h
    split at h <;> cases h
    exact ⟨rfl, fun _ => rfl, .inl rfl⟩
  | now =>
    cases h
    exact ⟨rfl, fun _ => rfl, .inl rfl⟩

/-- The clock a task read last is not ahead. -/
theorem exec_clockRead {op : Op} {reply : op.Reply} (loc : Loc)
    (h : exec setup t locs op c w = some (reply, w')) :
    (note op reply loc).session.clockRead = loc.session.clockRead ∨
      (note op reply loc).session.clockRead = w.clock := by
  cases op with
  | db op =>
    left
    show (noteDb op reply loc).session.clockRead = _
    unfold noteDb
    split <;> rfl
  | hub op =>
    left
    show (noteHub op reply loc).session.clockRead = _
    unfold noteHub
    split <;> rfl
  | session op =>
    left
    show (noteSession op reply loc).session.clockRead = _
    unfold noteSession noteSent
    split
    · split
      · rfl
      · split <;> rfl
    all_goals rfl
  | host op =>
    left
    show (noteHost op reply loc).session.clockRead = _
    rw [noteHost_session]
  | request op => exact .inl rfl
  | newUuid => exact .inl rfl
  | now =>
    cases h
    exact .inr rfl

theorem noteDb_generationRead (op : DbOp) (reply : op.Reply) (loc : Loc) :
    (noteDb op reply loc).session.generationRead = loc.session.generationRead ∨
      ∃ nodeId, op = .configGeneration nodeId := by
  unfold noteDb
  split
  case h_2 nodeId _ => exact .inr ⟨nodeId, rfl⟩
  all_goals exact .inl rfl

theorem noteSent_generationRead (msg : ServerMessage) (loc : SessionLoc) :
    (noteSent msg loc).generationRead = loc.generationRead := by
  unfold noteSent
  split
  · rfl
  · split <;> rfl

/-- What a session knows of a config generation: what it knew, what it reads now,
or nothing after it binds anew. -/
theorem exec_generationRead {op : Op} {reply : op.Reply} (loc : Loc)
    (h : exec setup t locs op c w = some (reply, w')) :
    (note op reply loc).session.generationRead = loc.session.generationRead ∨
      (∃ nodeId, op = .db (.configGeneration nodeId) ∧
        (note op reply loc).session.generationRead =
          some (if c.fail then none else some (w.db.configGeneration nodeId))) ∨
      (note op reply loc).session.generationRead = none := by
  cases op with
  | db op =>
    rcases noteDb_generationRead op reply loc with hsame | ⟨nodeId, rfl⟩
    · exact .inl hsame
    · simp only [exec, execDb, Option.some.injEq, Prod.mk.injEq] at h
      obtain ⟨rfl, -⟩ := h
      exact .inr (.inl ⟨nodeId, rfl, rfl⟩)
  | hub op =>
    left
    show (noteHub op reply loc).session.generationRead = _
    unfold noteHub
    split <;> rfl
  | session op =>
    cases op with
    | bind nodeId gate => exact .inr (.inr rfl)
    | streamSend msg =>
      left
      cases reply with
      | true => exact noteSent_generationRead msg loc.session
      | false => rfl
    | setGate gate | leave => exact .inl rfl
  | host op =>
    left
    show (noteHost op reply loc).session.generationRead = _
    rw [noteHost_session]
  | request op => exact .inl rfl
  | newUuid => exact .inl rfl
  | now => exact .inl rfl

/-! ## Cloned senders -/

/-- The sender a request holds was in the hub when it was cloned. -/
theorem exec_sender {op : Op} {reply : op.Reply} {nodeId : NodeId} {s : SessionId}
    (h : exec setup t locs op c w = some (reply, w'))
    (hsender : (note op reply loc).request.sender = some (nodeId, s)) :
    loc.request.sender = some (nodeId, s) ∨ w.hub.inner nodeId = some s := by
  cases op with
  | db op =>
    left
    revert hsender
    show (noteDb op reply loc).request.sender = _ → _
    unfold noteDb
    split <;> exact id
  | hub op =>
    cases op with
    | sender n =>
      simp only [exec, execHub, Option.some.injEq, Prod.mk.injEq] at h
      obtain ⟨hreply, -⟩ := h
      cases reply with
      | none => cases hsender
      | some tx =>
        cases hsender
        exact .inr hreply
    | pushSend tx msg => cases hsender
    | register n | unregister n | evict n | isConnected n | noteAbi n abi | skillAbi n
    | issueTicket n sha256 => exact .inl hsender
  | session op =>
    left
    revert hsender
    show (noteSession op reply loc).request.sender = _ → _
    unfold noteSession
    split <;> exact id
  | host op =>
    left
    revert hsender
    show (noteHost op reply loc).request.sender = _ → _
    unfold noteHost
    split <;> exact id
  | request op => exact .inl hsender
  | newUuid => exact .inl hsender
  | now => exact .inl hsender

end Novbot.Control
