import Novbot.Control.Contract

/-!
# The session meets its contract

One lemma for each procedure of the session task, in the order of the source:
handlers, the flush, the parts of a loop turn, and the four programs a session
runs.  A procedure's lemma says what it leaves of the session's own values, and
its callers use only that.

`Handled` is what the loop learns from a handler, and `Carried` what it knows in
the middle of a turn.
-/

namespace Novbot.Control

open Concurrent Prog

variable {setup : Setup} {s : SessionId} {loc : Loc}

theorem restAt.ofSession (h : loc.session.phase = .open → loc.session.Settled setup) :
    restAt setup (.session s) loc :=
  ⟨fun _ => h, fun hk => (by cases hk)⟩

/-! ## Handlers -/

/-- What the loop learns from a handler. -/
structure SessionLoc.Handled (loc : SessionLoc) (out : ServerMessage × Option NodeId)
    (loc' : SessionLoc) : Prop where
  same : loc.Same loc'
  reply : out.1.dispatch? = none
  desired : ∀ nodeId, out.1.forNode = some nodeId → nodeId ∈ loc.named
  presented : ∀ nodeId, out.2 = some nodeId → loc'.presented nodeId

theorem handleRegister_meets {requestId : String} {req : RegisterRequest}
    (hphase : loc.session.phase = .open) (hbody : loc.session.body = some (.register req))
    (hhand : loc.session.hand = []) :
    Prog.Meets setup (.session s) (handleRegister setup requestId req)
      (fun out loc' => loc.session.Handled out loc'.session) loc := by
  unfold handleRegister
  split
  · exact ⟨.refl _, rfl, fun _ h => (by cases h), fun _ h => (by cases h)⟩
  refine .call rfl ⟨hphase, hbody⟩ fun reply _ => ?_
  cases reply with
  | error message => exact ⟨.refl _, rfl, fun _ h => (by cases h), fun _ h => (by cases h)⟩
  | ok _ =>
    refine .call rfl ⟨hphase, List.mem_cons_self⟩ fun _ _ => ?_
    refine .call rfl ⟨hhand, .inl ⟨List.mem_cons_self, hphase⟩⟩ fun _ _ => ?_
    refine .call rfl List.mem_cons_self fun _ _ => ?_
    refine ⟨⟨rfl, rfl, rfl, rfl, rfl, rfl, rfl, rfl, rfl, ?_⟩, rfl, ?_, ?_⟩
    · exact fun n hn => List.mem_cons_of_mem _ hn
    · exact fun _ h => (by cases h)
    · rintro nodeId h
      cases h
      exact .inl List.mem_cons_self

/-- A reply about the named node that is neither a dispatch nor a desired set. -/
theorem SessionLoc.Handled.of_named {l l' : SessionLoc} {reply : ServerMessage} {nodeId : NodeId}
    (hsame : l.Same l') (hnamed : nodeId ∈ l.named) (hreply : reply.forNode = none) :
    l.Handled (reply, some nodeId) l' := by
  refine ⟨hsame, ?_, fun n h => (by rw [hreply] at h; cases h), fun n h => ?_⟩
  · unfold ServerMessage.forNode at hreply
    unfold ServerMessage.dispatch?
    split at hreply <;> simp_all
  · cases h
    exact .inr (hsame.named ▸ hnamed)

theorem handleHeartbeat_meets {requestId : String} {nodeId : NodeId}
    (hbody : loc.session.body = some (.heartbeat nodeId)) (hnamed : nodeId ∈ loc.session.named) :
    Prog.Meets setup (.session s) (handleHeartbeat requestId nodeId)
      (fun out loc' => loc.session.Handled out loc'.session) loc := by
  refine .call rfl (fun m acked h => ?_) fun _ _ => .call rfl trivial fun _ _ => ?_
  · exact absurd (hbody.symm.trans h) (by simp)
  · exact .of_named (same_configGeneration nodeId _ loc) hnamed rfl

theorem handlePullConfig_meets {requestId : String} {nodeId : NodeId}
    (hnamed : nodeId ∈ loc.session.named) :
    Prog.Meets setup (.session s) (handlePullConfig requestId nodeId)
      (fun out loc' => loc.session.Handled out loc'.session) loc := by
  refine .call rfl trivial fun reply _ => ?_
  rcases reply with err | _ | cfg <;> exact .of_named (.refl _) hnamed rfl

theorem handleSkillState_meets {requestId : String} {report : SkillStateReport}
    (hbody : loc.session.body = some (.skillState report))
    (hnamed : report.nodeId ∈ loc.session.named) :
    Prog.Meets setup (.session s) (handleSkillState requestId report)
      (fun out loc' => loc.session.Handled out loc'.session) loc := by
  refine .call rfl hbody fun reply _ => ?_
  cases reply <;> exact .of_named (.refl _) hnamed rfl

/-- Building a desired set touches nothing the task remembers of a session. -/
theorem skillRefs_meets {t : Tid} {nodeId : NodeId} {rows : List DesiredRow} :
    Prog.Meets setup t (skillRefs nodeId rows) (fun _ loc' => loc' = loc) loc := by
  induction rows generalizing loc with
  | nil => rfl
  | cons row rows ih =>
    refine .call rfl trivial fun ticket _ => .call rfl trivial fun envelope _ => ?_
    cases envelope with
    | error err => rfl
    | ok bytes =>
      refine Program.Meets.bind ih fun skills loc' h => ?_
      subst h
      cases skills <;> rfl

theorem buildDesired_meets {t : Tid} {nodeId : NodeId} :
    Prog.Meets setup t (buildDesired nodeId)
      (fun out loc' => loc' = loc ∧ ∀ desired, out = .ok desired → desired.forNode = nodeId)
      loc := by
  refine .call rfl trivial fun generation _ => ?_
  cases generation with
  | none => exact ⟨rfl, fun _ h => (by cases h)⟩
  | some generation =>
    refine .call rfl trivial fun rows _ => ?_
    cases rows with
    | error err => exact ⟨rfl, fun _ h => (by cases h)⟩
    | ok rows =>
      refine Program.Meets.bind skillRefs_meets fun skills loc' h => ?_
      subst h
      cases skills with
      | error err => exact ⟨rfl, fun _ h => (by cases h)⟩
      | ok skills => exact ⟨rfl, fun _ h => (by cases h; rfl)⟩

theorem handlePullSkills_meets {requestId : String} {nodeId : NodeId}
    (hnamed : nodeId ∈ loc.session.named) :
    Prog.Meets setup (.session s) (handlePullSkills requestId nodeId)
      (fun out loc' => loc.session.Handled out loc'.session) loc := by
  refine .call rfl trivial fun abi _ => ?_
  show Prog.Meets setup _ (if abi.getD "" = "" then _ else _) _ _
  split
  · exact .of_named (.refl _) hnamed rfl
  · refine Program.Meets.bind buildDesired_meets fun desired loc' h => ?_
    obtain ⟨rfl, hfor⟩ := h
    cases desired with
    | error err => exact .of_named (.refl _) hnamed rfl
    | ok desired =>
      refine ⟨.refl _, rfl, fun n h => ?_, fun n h => ?_⟩
      · cases h
        exact (hfor desired rfl).symm ▸ hnamed
      · cases h
        exact .inr hnamed

theorem storeReportedResult_meets {row : ResultRow} {req : ReportResultRequest} {observedAt : Int}
    (hbody : loc.session.body = some (.reportResult req)) (hrow : row = resultRow req observedAt) :
    Prog.Meets setup (.session s) (storeReportedResult setup row)
      (fun stored loc' => loc.session.Same loc'.session ∧
        (stored = true → (row.nodeId, row.runId) ∈ loc'.session.stored)) loc := by
  refine .call rfl ⟨req, observedAt, hbody, hrow⟩ fun inserted _ => ?_
  cases inserted with
  | false => exact ⟨.refl _, fun h => (by cases h)⟩
  | true =>
    have hsame : loc.session.Same (note (.db (.insertResult row)) true loc).session :=
      ⟨rfl, rfl, rfl, rfl, rfl, rfl, rfl, rfl, rfl, fun _ h => h⟩
    show Prog.Meets setup _ (if (!hasDenials setup row.payloadJson) = true then _ else _) _ _
    split
    · exact ⟨hsame, fun _ => List.mem_cons_self⟩
    · exact .last rfl trivial fun _ _ => ⟨hsame, fun _ => List.mem_cons_self⟩

theorem handleReportResult_meets {requestId : String} {req : ReportResultRequest}
    (hbody : loc.session.body = some (.reportResult req)) (hnamed : req.nodeId ∈ loc.session.named) :
    Prog.Meets setup (.session s) (handleReportResult setup requestId req)
      (fun out loc' => loc.session.Handled out loc'.session) loc := by
  refine .call rfl trivial fun received _ => ?_
  refine Program.Meets.bind (storeReportedResult_meets ?_ rfl) fun accepted loc' h => ?_
  · exact hbody
  cases accepted with
  | false => exact .of_named ((same_now received loc).trans h.1) hnamed rfl
  | true =>
    refine Prog.Meets.call rfl (h.2 rfl) fun _ _ => ?_
    exact .of_named ((same_now received loc).trans h.1) hnamed rfl

/-- A message in hand, of a session that waits. -/
structure SessionLoc.Taking (loc : SessionLoc) (msg : ClientMessage) : Prop where
  phase : loc.phase = .open
  handling : loc.handling = some msg
  hand : loc.hand = []
  forward : loc.forward = none
  timer : loc.timer = none
  named : ∀ nodeId, clientNodeId msg = some nodeId →
    (∃ req, msg.body = some (.register req)) ∨ nodeId ∈ loc.named

theorem handle_meets {msg : ClientMessage} (h : loc.session.Taking msg) :
    Prog.Meets setup (.session s) (handle setup msg)
      (fun out loc' => loc.session.Handled out loc'.session) loc := by
  obtain ⟨requestId, body⟩ := msg
  have hbody : loc.session.body = body := by simp [SessionLoc.body, h.handling]
  have hnamed := h.named
  cases body with
  | none => exact ⟨.refl _, rfl, fun _ h => (by cases h), fun _ h => (by cases h)⟩
  | some body =>
    cases body with
    | register req => exact handleRegister_meets h.phase hbody h.hand
    | heartbeat nodeId =>
      exact handleHeartbeat_meets hbody (by simpa [clientNodeId] using hnamed)
    | pullConfig nodeId =>
      exact handlePullConfig_meets (by simpa [clientNodeId] using hnamed)
    | reportResult req =>
      exact handleReportResult_meets hbody (by simpa [clientNodeId] using hnamed)
    | ack ofRequestId =>
      exact ⟨.refl _, rfl, fun _ h => (by cases h), fun _ h => (by cases h)⟩
    | nodeReady nodeId generation =>
      exact ⟨.refl _, rfl, fun _ h => (by cases h), fun _ h => (by cases h)⟩
    | pullSkills nodeId =>
      exact handlePullSkills_meets (by simpa [clientNodeId] using hnamed)
    | skillState report =>
      exact handleSkillState_meets hbody (by simpa [clientNodeId] using hnamed)

/-! ## The flush -/

/-- The session's values with nothing claimed in hand. -/
def SessionLoc.emptied (loc : SessionLoc) : SessionLoc := { loc with hand := [] }

theorem SessionLoc.emptied_of_nil {l : SessionLoc} (h : l.hand = []) : l.emptied = l := by
  cases l
  cases h
  rfl

/-- A claimed row that goes out leaves the session's hands. -/
theorem noteSent_claimed {l : SessionLoc} {row : ClaimedDispatch} {rows : List ClaimedDispatch}
    {d : Dispatch} (requestId : String) (hforward : l.forward = none)
    (hhand : l.hand = row :: rows) :
    noteSent ⟨requestId, some (.dispatch d)⟩ l =
      { l with hand := rows, history := .sent d (some row.replaced) :: l.history } := by
  simp [noteSent, ServerMessage.dispatch?, hforward, hhand]

theorem sendClaimed_meets {rows : List ClaimedDispatch} {nodeId : NodeId}
    (hphase : loc.session.phase = .open) (hbound : loc.session.bound = some nodeId)
    (hready : loc.session.gate.ready = true) (hforward : loc.session.forward = none)
    (hhand : loc.session.hand = rows) (hrows : ∀ row ∈ rows, row.nodeId = nodeId) :
    Prog.Meets setup (.session s) (sendClaimed rows)
      (fun _ loc' => loc.session.emptied.Same loc'.session) loc := by
  induction rows generalizing loc with
  | nil =>
    show loc.session.emptied.Same loc.session
    rw [SessionLoc.emptied_of_nil hhand]
    exact .refl _
  | cons row rows ih =>
    refine .call rfl trivial fun requestId _ => ?_
    have hrow : row.nodeId = nodeId := hrows row List.mem_cons_self
    refine .call rfl ⟨hphase, .inr ⟨hforward, ?_, fun h => (by cases h)⟩⟩ fun sent _ => ?_
    · rintro d hd
      cases hd
      exact ⟨hready, row, rows, hhand, rfl, hrow ▸ hbound⟩
    cases sent with
    | false =>
      show Prog.Meets setup _ (requeuePendingDispatches _ >>= fun _ => pure ()) _ _
      refine .call rfl (congrArg (List.map (·.id)) hhand.symm) fun _ _ => ?_
      exact ⟨rfl, rfl, rfl, rfl, rfl, rfl, hforward.symm, rfl, rfl, fun _ h => h⟩
    | true =>
      show Prog.Meets setup _ (sendClaimed rows) _ _
      generalize hl : note (.session (.streamSend _)) true _ = l
      have hl : l.session = _ := (congrArg Loc.session hl).symm.trans (noteSent_claimed requestId hforward hhand)
      refine (ih ?_ ?_ ?_ ?_ ?_ fun r hr => hrows r (.tail _ hr)).mono fun _ l' h => ?_
      · rw [hl]; exact hphase
      · rw [hl]; exact hbound
      · rw [hl]; exact hready
      · rw [hl]; exact hforward
      · rw [hl]
      · rw [hl] at h
        exact ⟨h.1, h.2, h.3, h.4, h.5, h.6, h.7, h.8, h.9, h.10⟩

theorem flushPending_meets {nodeId : NodeId} (hphase : loc.session.phase = .open)
    (hbound : loc.session.bound = some nodeId) (hready : loc.session.gate.ready = true)
    (hforward : loc.session.forward = none) (hhand : loc.session.hand = []) :
    Prog.Meets setup (.session s) (flushPending nodeId)
      (fun _ loc' => loc.session.Same loc'.session) loc := by
  refine .call rfl trivial fun clock _ => ?_
  refine .call rfl ⟨hphase, hbound, hready, hhand, rfl⟩ fun claimed hgives => ?_
  cases claimed with
  | none => exact same_now clock loc
  | some rows =>
    have hrows : ∀ row ∈ rows, row.nodeId = nodeId := fun row hrow => (hgives row hrow).1
    refine Program.Meets.mono (sendClaimed_meets ?_ ?_ ?_ ?_ rfl hrows) fun _ l' h => ?_
    · exact hphase
    · exact hbound
    · exact hready
    · exact hforward
    exact ⟨h.1, h.2, h.3, h.4, h.5, h.6.trans hhand.symm, h.7, h.8, h.9, h.10⟩

theorem activateReady_meets {nodeId : NodeId} (hphase : loc.session.phase = .open)
    (hbound : loc.session.bound = some nodeId) (hready : loc.session.gate.ready = true)
    (hactive : loc.session.active = false) (hforward : loc.session.forward = none)
    (hhand : loc.session.hand = []) :
    Prog.Meets setup (.session s) (activateReady nodeId)
      (fun _ loc' => SessionLoc.Same { loc.session with active := true } loc'.session) loc := by
  refine .call rfl ⟨hphase, hbound, hready, hactive⟩ fun _ _ => ?_
  exact flushPending_meets hphase hbound hready hforward hhand

/-! ## The loop -/

theorem SessionLoc.Settled.same {l l' : SessionLoc} (h : l.Settled setup) (hs : l.Same l') :
    l'.Settled setup := by
  refine ⟨hs.hand.trans h.hand, hs.forward.trans h.forward, fun hb => ?_, fun n hn => ?_⟩
  · rw [hs.gate, hs.active]
    exact h.unbound (hs.bound ▸ hb)
  · obtain ⟨hp, hb, hr⟩ := h.bound n (hs.bound ▸ hn)
    rw [hs.gate, hs.active]
    refine ⟨?_, hb, hr⟩
    rcases hp with hp | hp
    · exact .inl (hs.accepted n hp)
    · exact .inr (hs.named ▸ hp)

/-- The session's values out of the hub. -/
def SessionLoc.released (loc : SessionLoc) : SessionLoc := { loc with active := false }

/-- Leaving one binding: out of the hub, and the rows of the node made available. -/
theorem release_meets {nodeId : NodeId} (hbound : loc.session.bound = some nodeId)
    (hhand : loc.session.hand = []) :
    Prog.Meets setup (.session s) (release nodeId)
      (fun _ loc' => loc'.session = loc.session.released) loc := by
  refine .call rfl hbound fun _ _ => ?_
  exact Prog.Meets.call rfl ⟨hhand, .inr ⟨hbound, rfl⟩⟩ fun _ _ => rfl

theorem endSession_meets (hphase : loc.session.phase = .open) (hhand : loc.session.hand = []) :
    Prog.Meets setup (.session s) (endSession loc.session.bound)
      (fun _ loc' => restAt setup (.session s) loc') loc := by
  refine .call rfl hphase fun _ _ => ?_
  cases hb : loc.session.bound with
  | none => exact .ofSession fun h => (by cases h)
  | some nodeId =>
    show Prog.Meets setup _ (release nodeId) _ _
    refine Program.Meets.mono (release_meets ?_ ?_) fun _ l' h => ?_
    · exact hb
    · exact hhand
    refine .ofSession fun hopen => ?_
    rw [h] at hopen
    cases hopen

/-- A turn of the loop goes on from `was`: its variables are the session's, the
session is settled, and what it has in hand is what it had. -/
structure Carried (setup : Setup) (was : SessionLoc) (vars : Option NodeId × ReadyGate)
    (loc : SessionLoc) : Prop where
  phase : loc.phase = .open
  vars : vars = (loc.bound, loc.gate)
  settled : loc.Settled setup
  handling : loc.handling = was.handling
  timer : loc.timer = was.timer
  named : loc.named = was.named

theorem bindNew_meets {nid : NodeId} (hphase : loc.session.phase = .open)
    (hhand : loc.session.hand = []) (hforward : loc.session.forward = none)
    (hactive : loc.session.active = false) (hpresented : loc.session.presented nid)
    (hb : loc.session.bound ≠ some nid) :
    Prog.Meets setup (.session s)
      (do
        let gate := (ReadyGate.new setup.readyTimeout).onBound (← now)
        bindNode nid gate
        return (some nid, gate))
      (fun vars loc' => Carried setup loc.session vars loc'.session) loc := by
  refine .call rfl trivial fun clock _ => ?_
  refine .call rfl ⟨hphase, hpresented, hactive, hhand, hforward, hb, ReadyGate.new_onBound _ _⟩
    fun _ _ => ?_
  refine ⟨hphase, rfl, ⟨hhand, hforward, fun h => (by cases h), ?_⟩, rfl, rfl, rfl⟩
  rintro n h
  cases h
  exact ⟨hpresented, ⟨clock, rfl⟩, rfl⟩

theorem rebind_meets {nodeId : Option NodeId} (hphase : loc.session.phase = .open)
    (hsettled : loc.session.Settled setup)
    (hpresented : ∀ n, nodeId = some n → loc.session.presented n) :
    Prog.Meets setup (.session s) (rebind setup loc.session.bound loc.session.gate nodeId)
      (fun vars loc' => Carried setup loc.session vars loc'.session) loc := by
  cases nodeId with
  | none => exact ⟨hphase, rfl, hsettled, rfl, rfl, rfl⟩
  | some nid =>
    have hnid := hpresented nid rfl
    unfold rebind
    by_cases hb : loc.session.bound = some nid
    · simp only [hb, if_true]
      exact ⟨hphase, by rw [hb], hsettled, rfl, rfl, rfl⟩
    simp only [if_neg hb]
    cases hold : loc.session.bound with
    | none =>
      have hactive := (hsettled.unbound hold).2
      exact bindNew_meets hphase hsettled.hand hsettled.forward hactive hnid hb
    | some old =>
      refine Program.Meets.bind (release_meets hold hsettled.hand) fun _ l h => ?_
      have hnew := @bindNew_meets setup s l nid
      rw [h] at hnew
      refine (hnew hphase hsettled.hand hsettled.forward rfl hnid hb).mono fun vars l' h' => ?_
      exact ⟨h'.phase, h'.vars, h'.settled, h'.handling, h'.timer, h'.named⟩

/-- A gate that opened, before its session is in the hub. -/
structure SessionLoc.Opened (loc : SessionLoc) (nodeId : NodeId) : Prop where
  phase : loc.phase = .open
  bound : loc.bound = some nodeId
  ready : loc.gate.ready = true
  active : loc.active = false
  presented : loc.presented nodeId
  boundAt : ∃ t, loc.gate.boundAt = some t
  hand : loc.hand = []
  forward : loc.forward = none

theorem SessionLoc.Opened.of_settled {l : SessionLoc} {nodeId : NodeId} {reason : Option Reason}
    (hphase : l.phase = .open) (hsettled : l.Settled setup) (hbound : l.bound = some nodeId)
    (hclosed : l.gate.ready = false) :
    SessionLoc.Opened { l with gate := l.gate.opened, reason := reason } nodeId := by
  obtain ⟨hpresented, hbind, hactive⟩ := hsettled.bound nodeId hbound
  exact ⟨hphase, hbound, rfl, hactive.symm.trans hclosed, hpresented, hbind, hsettled.hand,
    hsettled.forward⟩

theorem activateOpened_meets {nodeId : NodeId} (h : loc.session.Opened nodeId) :
    Prog.Meets setup (.session s) (activateReady nodeId)
      (fun _ loc' => Carried setup loc.session (some nodeId, loc.session.gate) loc'.session) loc := by
  refine (activateReady_meets h.phase h.bound h.ready h.active h.forward h.hand).mono
    fun _ l hl => ?_
  refine ⟨hl.phase.trans h.phase, Prod.ext ?_ hl.gate.symm, SessionLoc.Settled.same ?_ hl,
    hl.handling, hl.timer, hl.named⟩
  · exact (hl.bound.trans h.bound).symm
  · refine ⟨h.hand, h.forward, fun hn => ?_, fun n hn => ?_⟩
    · exact absurd (h.bound.symm.trans hn) (by simp)
    · obtain rfl : nodeId = n := Option.some.inj (h.bound.symm.trans hn)
      exact ⟨h.presented, h.boundAt, h.ready⟩

/-- What a turn does with a `NodeReady` of the bound node. -/
theorem applyNodeReady_meets {nodeId : NodeId} {acked : Int} (hphase : loc.session.phase = .open)
    (hsettled : loc.session.Settled setup) (hbound : loc.session.bound = some nodeId)
    (htimer : loc.session.timer = none)
    (hbody : loc.session.body = some (.nodeReady nodeId acked)) :
    Prog.Meets setup (.session s) (applyNodeReady loc.session.gate nodeId acked)
      (fun out loc' => Carried setup loc.session (some nodeId, out.2) loc'.session) loc := by
  refine .call rfl (fun _ _ _ => hbound) fun center _ => ?_
  have hsettled' := hsettled.same (same_configGeneration nodeId center loc)
  rcases loc.session.gate.onNodeReady_cases acked (center.getD 0) with h | ⟨hclosed, hgen, h⟩
  · simp only [h]
    exact ⟨hphase, Prod.ext hbound.symm rfl, hsettled', rfl, rfl, rfl⟩
  · simp only [h, if_true]
    have hreason : openReason (note (.db (.configGeneration nodeId)) center loc).session =
        some (.acked acked center) := by
      show openReason { loc.session with generationRead := some center } = _
      have hmsg : loc.session.handling.bind (·.body) = some (.nodeReady nodeId acked) := hbody
      simp [openReason, htimer, hmsg, hbound]
    refine .call rfl ⟨hclosed, rfl, _, hreason, hgen⟩ fun _ _ => ?_
    refine Program.Meets.bind (activateOpened_meets ?_) fun _ l hl => ?_
    · exact .of_settled hphase hsettled' hbound hclosed
    · exact ⟨hl.phase, hl.vars, hl.settled, hl.handling, hl.timer, hl.named⟩

theorem nodeReadyTurn_meets {body : Option ClientBody} (hphase : loc.session.phase = .open)
    (hsettled : loc.session.Settled setup) (htimer : loc.session.timer = none)
    (hbody : loc.session.body = body) :
    Prog.Meets setup (.session s) (nodeReadyTurn loc.session.bound loc.session.gate body)
      (fun out loc' => Carried setup loc.session (loc.session.bound, out.2) loc'.session) loc := by
  have hsame : Carried setup loc.session (loc.session.bound, loc.session.gate) loc.session :=
    ⟨hphase, rfl, hsettled, rfl, rfl, rfl⟩
  unfold nodeReadyTurn
  split
  · next hbound =>
    split
    · next hnid =>
      subst hnid
      exact hbound ▸ applyNodeReady_meets hphase hsettled hbound htimer hbody
    · exact hbound ▸ hsame
  · exact hsame

/-- The session's values with no push message in hand. -/
def SessionLoc.forwarded (loc : SessionLoc) : SessionLoc := { loc with forward := none }

theorem noteSent_settled {l : SessionLoc} {msg : ServerMessage}
    (hsettled : l.forwarded.Settled setup) (h : msg.dispatch? = none ∨ l.forward.isSome = true) :
    (noteSent msg l).Settled setup := by
  unfold noteSent
  split
  · exact hsettled
  · next d hd =>
    have hf : l.forward.isSome = true := h.resolve_left (by simp [hd])
    rw [if_pos hf]
    exact ⟨hsettled.hand, rfl, hsettled.unbound, hsettled.bound⟩

/-- The send at the end of a turn, and the end of the session when it fails. -/
theorem sendLast_meets {msg : ServerMessage} (hphase : loc.session.phase = .open)
    (hsettled : loc.session.forwarded.Settled setup) (hwrite : mayWrite msg loc.session)
    (hmsg : msg.dispatch? = none ∨ loc.session.forward.isSome = true) :
    Prog.Meets setup (.session s)
      (do
        if !(← streamSend msg) then
          endSession loc.session.bound)
      (fun _ loc' => restAt setup (.session s) loc') loc := by
  refine .call rfl ⟨hphase, hwrite⟩ fun sent _ => ?_
  cases sent with
  | true => exact .ofSession fun _ => noteSent_settled hsettled hmsg
  | false => exact endSession_meets hphase hsettled.hand

theorem onFrame_meets {msg : ClientMessage} (htaking : loc.session.Taking msg)
    (hsettled : loc.session.Settled setup) :
    Prog.Meets setup (.session s) (onFrame setup loc.session.bound loc.session.gate msg)
      (fun _ loc' => restAt setup (.session s) loc') loc := by
  refine Program.Meets.bind (handle_meets htaking) fun out l hout => ?_
  have hphase : l.session.phase = .open := hout.same.phase.trans htaking.phase
  have hvars : rebind setup loc.session.bound loc.session.gate out.2 =
      rebind setup l.session.bound l.session.gate out.2 := by
    rw [hout.same.bound, hout.same.gate]
  show Prog.Meets setup _ (rebind setup loc.session.bound loc.session.gate out.2 >>= _) _ _
  rw [hvars]
  refine Program.Meets.bind (rebind_meets hphase (hsettled.same hout.same) hout.presented)
    fun vars l₁ h => ?_
  obtain ⟨hphase₁, rfl, hsettled₁, hhandling, htimer, hnamed⟩ := h
  have hbody : l₁.session.body = msg.body := by
    rw [SessionLoc.body, hhandling, hout.same.handling, htaking.handling]
    rfl
  have htimer₁ : l₁.session.timer = none := by
    rw [htimer, hout.same.timer, htaking.timer]
  refine Program.Meets.bind (nodeReadyTurn_meets hphase₁ hsettled₁ htimer₁ hbody)
    fun turn l₂ h => ?_
  obtain ⟨hphase₂, hvars₂, hsettled₂, -, -, hnamed₂⟩ := h
  obtain ⟨hbound₂, hgate₂⟩ := Prod.mk.inj hvars₂
  have hreply : ∀ l₃ : Loc, l₂.session.Same l₃.session → Prog.Meets setup (.session s)
      (do
        if !(← streamSend out.1) then
          endSession l₁.session.bound)
      (fun _ loc' => restAt setup (.session s) loc') l₃ := by
    intro l₃ hsame
    have hsettled₃ := hsettled₂.same hsame
    have hnamed₃ : l₃.session.named = loc.session.named := by
      rw [hsame.named, hnamed₂, hnamed, hout.same.named]
    rw [hbound₂, ← hsame.bound]
    refine sendLast_meets (hsame.phase.trans hphase₂) ?_ (.inr ⟨hsettled₃.forward, ?_, ?_⟩)
      (.inl hout.reply)
    · exact ⟨hsettled₃.hand, rfl, hsettled₃.unbound, hsettled₃.bound⟩
    · exact fun d hd => absurd (hout.reply.symm.trans hd) (by simp)
    · exact fun _ n hn => hnamed₃ ▸ hout.desired n hn
  obtain ⟨flushed, gate⟩ := turn
  show Prog.Meets setup _ (if _ then _ else _) _ _
  split
  · next hflush =>
    split
    · next nid hnid =>
      refine Program.Meets.bind (flushPending_meets hphase₂ ?_ ?_ hsettled₂.forward hsettled₂.hand)
        fun _ l₃ h₃ => hreply l₃ h₃
      · exact hbound₂.symm.trans hnid
      · rw [← hgate₂]
        exact (Bool.and_eq_true_iff.mp hflush).1
    · exact hreply l₂ (.refl _)
  · exact hreply l₂ (.refl _)

theorem onStreamEnd_meets (hphase : loc.session.phase = .open)
    (hsettled : loc.session.Settled setup) :
    Prog.Meets setup (.session s) (onStreamEnd loc.session.bound)
      (fun _ loc' => restAt setup (.session s) loc') loc :=
  endSession_meets hphase hsettled.hand

theorem onPush_meets {msg : ServerMessage} (hphase : loc.session.phase = .open)
    (hforward : loc.session.forward = some msg)
    (hsettled : loc.session.forwarded.Settled setup) :
    Prog.Meets setup (.session s) (onPush loc.session.bound msg)
      (fun _ loc' => restAt setup (.session s) loc') loc :=
  sendLast_meets hphase hsettled (.inl hforward) (.inr (by simp [hforward]))

theorem onTimer_meets {due : Nat} (hphase : loc.session.phase = .open)
    (hsettled : loc.session.Settled setup) (htimer : loc.session.timer = some due)
    (hdue : loc.session.gate.deadline = some due) :
    Prog.Meets setup (.session s) (onTimer loc.session.bound loc.session.gate due)
      (fun _ loc' => restAt setup (.session s) loc') loc := by
  refine .call rfl trivial fun clock _ => ?_
  have hsettled' := hsettled.same (same_now clock loc)
  rcases loc.session.gate.onTimeout_cases (max clock due) with h | ⟨hclosed, ⟨t, ht, hle⟩, h⟩
  · simp only [h]
    exact .ofSession fun _ => hsettled'
  · simp only [h, if_true]
    have hreason : openReason (note .now clock loc).session =
        some (.deadline due (max clock due)) := by
      show openReason { loc.session with clockRead := clock } = _
      simp only [openReason, htimer]
    have hvalid : (Reason.deadline due (max clock due)).valid loc.session.gate :=
      ⟨by simpa [ReadyGate.deadline, hclosed] using hdue, le_max_right _ _⟩
    refine .call rfl ⟨hclosed, rfl, _, hreason, hvalid⟩ fun _ _ => ?_
    cases hb : loc.session.bound with
    | none =>
      rw [(hsettled.unbound hb).1] at ht
      cases ht
    | some nid =>
      refine Program.Meets.mono (activateOpened_meets ?_) fun _ l hl => ?_
      · exact .of_settled hphase hsettled' hb hclosed
      · exact .ofSession fun _ => hl.settled

end Novbot.Control
