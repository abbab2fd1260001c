import Novbot.Control.Routing

/-!
# What a session can do for a node

A session is bound to whatever node its messages name, and only a `Register`
checks the bootstrap token.  So a session without an accepted `Register` can
become the hub's sender of a node and receive its dispatches.

What does hold is weaker: nothing is sent to a session or stored from it for a
node that the session never named.  The invariant follows a message from the
hub's sender through the clone of a request and the push channel to the stream.
-/

namespace Novbot.Control

open Concurrent

variable {setup : Setup} {sys : System} {w w' : World} {locs : Tid → Loc} {t : Tid}
  {op : Op} {c : Choice}

/-- Nothing is sent to the session for the node, nothing is stored from it for
the node, and the hub does not reach the node through it. -/
structure Untouched (sys : System) (s : SessionId) (nodeId : NodeId) : Prop where
  write : ∀ msg, sys.about (.session s) (.session (.streamSend msg)) → msg.forNode ≠ some nodeId
  hub : sys.shared.hub.inner nodeId ≠ some s
  result : ∀ row, sys.about (.session s) (.db (.insertResult row)) → row.nodeId ≠ nodeId
  skillState : ∀ report, sys.about (.session s) (.db (.applyReport report)) →
    report.nodeId ≠ nodeId

/-! ## The invariant -/

/-- What a session holds is about nodes that it was told of. -/
structure PresentedAt (push : List ServerMessage) (loc : SessionLoc) : Prop where
  bound : ∀ n, loc.bound = some n → loc.presented n
  forward : ∀ msg n, loc.forward = some msg → msg.forNode = some n → loc.presented n
  push : ∀ msg ∈ push, ∀ n, msg.forNode = some n → loc.presented n
  report : ∀ req, loc.body = some (.reportResult req) → req.nodeId ∈ loc.named
  skillState : ∀ report, loc.body = some (.skillState report) → report.nodeId ∈ loc.named
  absent : loc.phase = .absent → loc.accepted = [] ∧ loc.named = []

/-- So is what a request is about to send to it. -/
structure Presented (w : World) (locs : Tid → Loc) : Prop where
  sessions : ∀ s, PresentedAt (w.streams s).push (sessionOf locs s)
  senders : ∀ r n s, (locs (.request r)).request.sender = some (n, s) →
    (sessionOf locs s).presented n

theorem Presented.act {reply : op.Reply} (h : Presented w locs) (hrouted : Routed w locs)
    (hpre : preOp setup t op (locs t)) (howner : op.ownedBy t = true)
    (he : exec setup t locs op c w = some (reply, w')) :
    Presented w' (Function.update locs t (note op reply (locs t))) := by
  have hkeeps := keeps_update (note_keeps op reply (locs t))
  have hsender : ∀ n s, (note op reply (locs t)).request.sender = some (n, s) →
      (locs t).request.sender = some (n, s) ∨ (sessionOf locs s).presented n := by
    intro n s hs
    rcases exec_sender he hs with hs | hs
    · exact .inl hs
    · exact .inr ((h.sessions s).bound n ((hrouted s).inHub n hs).1)
  refine ⟨fun s => ⟨fun n hn => ?_, fun msg n hmsg hn => ?_, fun msg hmsg n hn => ?_, ?_, ?_, ?_⟩, ?_⟩
  · rcases (exec_route he).bound s with hsame | ⟨ht, n', gate, hop, hbound⟩
    · exact (hkeeps s).presented ((h.sessions s).bound n (hsame.symm.trans hn))
    · subst ht hop
      obtain rfl := Option.some.inj (hbound.symm.trans hn)
      exact (hkeeps s).presented hpre.2.1
  · rcases (hkeeps s).forward with hsame | hnone
    · exact (hkeeps s).presented ((h.sessions s).forward msg n (hsame.symm.trans hmsg) hn)
    · exact absurd (hnone.symm.trans hmsg) (by simp)
  · refine (hkeeps s).presented ?_
    rcases exec_push he with hpush | ⟨tx, sent, hop, -, hpush⟩
    · rw [hpush] at hmsg
      exact (h.sessions s).push msg hmsg n hn
    · rw [hpush] at hmsg
      split at hmsg
      · next hs =>
        subst hs
        rcases List.mem_append.mp hmsg with hmsg | hmsg
        · exact (h.sessions s).push msg hmsg n hn
        · -- The message a request sends on its clone is for the node of the clone.
          subst hop
          obtain rfl := List.mem_singleton.mp hmsg
          obtain ⟨r, rfl⟩ := Tid.kind_request (eq_of_beq howner).symm
          obtain ⟨n', hs, hn', -⟩ := hpre
          obtain rfl := Option.some.inj (hn.symm.trans hn')
          exact h.senders r n s hs
      · exact (h.sessions s).push msg hmsg n hn
  · rw [SessionLoc.body, (hkeeps s).handling, (hkeeps s).named]
    exact (h.sessions s).report
  · rw [SessionLoc.body, (hkeeps s).handling, (hkeeps s).named]
    exact (h.sessions s).skillState
  · intro hs
    have hold := (exec_route he).absent hs
    obtain ⟨haccepted, hnamed⟩ := (h.sessions s).absent hold
    refine ⟨?_, (hkeeps s).named.trans hnamed⟩
    rw [sessionOf_update]
    split
    · next ht =>
      subst ht
      rw [List.eq_nil_iff_forall_not_mem]
      intro n hn
      rcases note_accepted hn with hn | ⟨req, rfl⟩
      · exact absurd hn (by rw [show (locs (.session s)).session.accepted = [] from haccepted]; simp)
      · exact absurd (hpre.1.symm.trans hold) (by simp)
    · exact haccepted
  · intro r n s hs
    refine (hkeeps s).presented ?_
    by_cases ht : t = .request r
    · subst ht
      rw [Function.update_self] at hs
      rcases hsender n s hs with hs | hs
      · exact h.senders r n s hs
      · exact hs
    · rw [Function.update_of_ne (Ne.symm ht)] at hs
      exact h.senders r n s hs

/-- A session's history changes to one that knows as much. -/
theorem Presented.update (h : Presented sys.shared sys.loc) {s : SessionId} {loc : Loc}
    (hpush : ∀ s', s' ≠ s → ∀ msg ∈ (w'.streams s').push, msg ∈ (sys.shared.streams s').push)
    (hloc : PresentedAt (w'.streams s).push loc.session)
    (hpresented : ∀ n, (sessionOf sys.loc s).presented n → loc.session.presented n) :
    Presented w' (Function.update sys.loc (.session s) loc) := by
  refine ⟨forall_sessionOf_update.mpr ⟨hloc, fun s' hs => ?_⟩, fun r n s' hs => ?_⟩
  · have hold := h.sessions s'
    exact { hold with push := fun msg hm => hold.push msg (hpush s' hs msg hm) }
  · rw [Function.update_of_ne (by simp)] at hs
    have hold := h.senders r n s' hs
    rw [sessionOf_update]
    split
    · next hs' =>
      cases hs'
      exact hpresented n hold
    · exact hold

theorem Presented.connect (h : Presented sys.shared sys.loc) {s : SessionId}
    (hphase : (sys.loc (.session s)).session.phase = .absent)
    (hpush : ∀ s', (w'.streams s').push = if s' = s then [] else (sys.shared.streams s').push) :
    Presented w' (Function.update sys.loc (.session s) (.fresh setup.readyTimeout .open)) := by
  refine h.update (fun s' hs msg hm => ?_) ⟨?_, ?_, ?_, ?_, ?_, ?_⟩ fun n hn => ?_
  · rwa [hpush, if_neg hs] at hm
  · exact fun n hn => (by cases hn)
  · exact fun msg n hm => (by cases hm)
  · rw [hpush, if_pos rfl]
    exact fun msg hm => (by cases hm)
  · exact fun req hb => (by cases hb)
  · exact fun report hb => (by cases hb)
  · exact fun _ => ⟨rfl, rfl⟩
  · obtain ⟨haccepted, hnamed⟩ := (h.sessions s).absent hphase
    rcases hn with hn | hn
    · exact absurd hn (by rw [haccepted]; simp)
    · exact absurd hn (by rw [hnamed]; simp)

theorem Presented.frame (h : Presented sys.shared sys.loc) {s : SessionId} {msg : ClientMessage}
    (hwait : waiting sys s = true)
    (hpush : ∀ s' msg, msg ∈ (w'.streams s').push → msg ∈ (sys.shared.streams s').push) :
    Presented w' (Function.update sys.loc (.session s) (takeFrame msg (sys.loc (.session s)))) := by
  have hold := h.sessions s
  have hgrows : ∀ n, (sessionOf sys.loc s).presented n →
      (takeFrame msg (sys.loc (.session s))).session.presented n :=
    fun n hn => hn.imp_right fun hn => List.mem_append_right _ hn
  refine h.update (fun s' _ => hpush s') ⟨?_, ?_, ?_, ?_, ?_, ?_⟩ hgrows
  · exact fun n hn => hgrows n (hold.bound n hn)
  · exact fun m n hm hn => hgrows n (hold.forward m n hm hn)
  · exact fun m hm n hn => hgrows n (hold.push m (hpush s m hm) n hn)
  · intro req hreq
    replace hreq : msg.body = some (.reportResult req) := hreq
    simp [takeFrame, clientNodeId, hreq]
  · intro report hreport
    replace hreport : msg.body = some (.skillState report) := hreport
    simp [takeFrame, clientNodeId, hreport]
  · intro habsent
    simp only [waiting, Bool.and_eq_true, decide_eq_true_eq] at hwait
    exact absurd (hwait.2.symm.trans habsent) (by simp)

theorem Presented.request (h : Presented sys.shared sys.loc) {r : RequestId}
    (hpush : ∀ s, (w'.streams s).push = (sys.shared.streams s).push) :
    Presented w' (Function.update sys.loc (.request r) (takeRequest (sys.loc (.request r)))) := by
  refine ⟨fun s => ?_, fun r' n s hs => ?_⟩
  · rw [sessionOf_update, if_neg (by simp), hpush]
    exact h.sessions s
  · rw [sessionOf_update, if_neg (by simp)]
    by_cases hr : r' = r
    · subst hr
      rw [Function.update_self] at hs
      exact h.senders r' n s hs
    · rw [Function.update_of_ne fun ht => hr (Tid.request.inj ht)] at hs
      exact h.senders r' n s hs

theorem Presented.event {e : Event} (h : Presented sys.shared sys.loc)
    (he : Fired setup sys e w' locs) : Presented w' locs := by
  have hpush : ∀ s msg, msg ∈ (w'.streams s).push → msg ∈ (sys.shared.streams s).push :=
    fun s msg hm => he.push_mem hm
  have hrest : Presented w' sys.loc := by
    refine ⟨fun s => ?_, h.senders⟩
    have hold := h.sessions s
    exact { hold with push := fun msg hm => hold.push msg (hpush s msg hm) }
  cases he with
  | connect s hphase | hostConnect nodeId s hphase =>
    refine h.connect hphase fun s' => ?_
    show (((sys.shared.setStream s .new).streams s').push) = _
    rw [setStream_streams]
    split <;> rfl
  | frame s msg rest hwait hin => exact h.frame hwait hpush
  | push s msg rest hwait hmsg =>
    have hold := h.sessions s
    refine h.update (fun s' _ => hpush s') ?_ fun _ hn => hn
    refine ⟨hold.bound, ?_, fun m hm => hold.push m (hpush s m hm), ?_, ?_, hold.absent⟩
    · intro m n hm hn
      cases hm
      exact hold.push msg (by rw [hmsg]; exact List.mem_cons_self) n hn
    · exact fun _ hb => (by cases hb)
    · exact fun _ hb => (by cases hb)
  | timer s due hwait hdue hle =>
    have hold := h.sessions s
    refine h.update (fun s' _ => hpush s') ?_ fun _ hn => hn
    exact ⟨hold.bound, hold.forward, hold.push, fun _ hb => (by cases hb),
      fun _ hb => (by cases hb), hold.absent⟩
  | request r command hnew => exact h.request fun _ => rfl
  | cancel r => exact h.request fun _ => rfl
  | _ => exact hrest

variable {ok : System → Move Tid Choice Event → Prop}

theorem presented_of_reaches (h : (control setup).Reaches ok (initial setup) sys) :
    Presented sys.shared sys.loc := by
  refine h.invariant control_obeys control_sound ?_ ?_ ?_
  · refine ⟨fun s => ?_, fun _ _ _ h => (by cases h)⟩
    exact ⟨fun _ h => (by cases h), fun _ _ h => (by cases h), fun _ h => (by cases h),
      fun _ h => (by cases h), fun _ h => (by cases h), fun _ => ⟨rfl, rfl⟩⟩
  · rintro sys t op c reply w' hreach hp - - ⟨howner, hpre⟩ - he
    exact hp.act (routed_of_reaches hreach) hpre howner he
  · intro sys e sys' hreach hp _ hfire
    exact hp.event (fire_cases (sound_of_reaches hreach) hfire)

/-! ## What it says of a session -/

/-- A message a session writes of its own is about a node it was told of. -/
theorem presented_of_write {loc : SessionLoc} {push : List ServerMessage} {msg : ServerMessage}
    {nodeId : NodeId} (h : PresentedAt push loc) (hwrite : mayWrite msg loc)
    (hfor : msg.forNode = some nodeId) : loc.presented nodeId := by
  rcases hwrite with hforward | ⟨-, hdispatch, hdesired⟩
  · exact h.forward msg nodeId hforward hfor
  · cases hd : msg.dispatch? with
    | none => exact .inr (hdesired hd nodeId hfor)
    | some d =>
      obtain ⟨-, row, rows, -, hmade, hbound⟩ := hdispatch d hd
      have hnode : d.forNode = nodeId := by
        rw [msg.forNode_of_dispatch hd] at hfor
        exact Option.some.inj hfor
      rw [hmade] at hnode
      exact h.bound nodeId (hnode ▸ hbound)

/-- A session that names one node only, without a token, and becomes ready. -/
def unregisteredReady : List (Move Tid Choice Event) :=
  [.event (.connect 0)] ++ clientTurn 0 (.heartbeat "node") 5 ++
  clientTurn 0 (.nodeReady "node" 0) 6

end Novbot.Control
