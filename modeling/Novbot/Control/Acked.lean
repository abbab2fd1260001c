import Novbot.Control.Tables

/-!
# What stands behind an acknowledgement

The center drops the pending rows of a run when it stored a report of it.  A node ends a run with
one outcome, and it sends that outcome or spools it.  A run that it has taken up before is answered
as a duplicate, so that its row goes away, whether or not the center has the outcome by then.

So behind every row that went away is the outcome of the run, or the answer of a node that took it
up earlier (`acked_after_report`).
-/

namespace Novbot.Control

open Concurrent

variable {setup : Setup} {sys sys' : System} {w w' : World} {locs : Tid → Loc} {t : Tid}
  {op : Op} {c : Choice} {past past' : List (System × Move Tid Choice Event)}
  {m : Move Tid Choice Event} {req : ReportResultRequest} {nodeId : NodeId} {runId : RunId}

/-- The history of a node's task. -/
def hostOf (locs : Tid → Loc) (nodeId : NodeId) (task : HostTask) : HostLoc :=
  (locs (.host nodeId task)).host

/-- The node took up the run in a move of the past. -/
def TakenUp (past : List (System × Move Tid Choice Event)) (nodeId : NodeId) (runId : RunId) :
    Prop :=
  ∃ p ∈ past, ∃ task c, p.2 = .act (.host nodeId task) c ∧
    p.1.about (.host nodeId task) (.host (.seenInsert runId)) ∧
    runId ∉ (p.1.shared.hosts nodeId).seen

/-- A report that nodes send: the outcome that one ended a run with, or the answer to a run that it
had taken up before. -/
def Honest (setup : Setup) (past : List (System × Move Tid Choice Event)) (w : World)
    (req : ReportResultRequest) : Prop :=
  req ∈ w.egress ∨ ∃ d observedAt, req = duplicateReport setup req.nodeId d observedAt ∧
    TakenUp past req.nodeId d.runId

/-- The center has stored such a report of the run. -/
def Settled (setup : Setup) (past : List (System × Move Tid Choice Event)) (w : World)
    (run : NodeId × RunId) : Prop :=
  ∃ row ∈ w.db.results, row.run = run ∧
    ∃ req observedAt, row = resultRow req observedAt ∧ Honest setup past w req

/-- The next move drops pending rows of settled runs only. -/
def AckedSettled (setup : Setup) (past : List (System × Move Tid Choice Event))
    (sys sys' : System) : Prop :=
  ∀ row ∈ sys.shared.db.pending, (∃ row' ∈ sys'.shared.db.pending, row'.id = row.id) ∨
    Settled setup past sys.shared row.run

/-- The next move drops pending rows of runs whose outcome is stored only. -/
def AckedGenuine (sys sys' : System) : Prop :=
  ∀ row ∈ sys.shared.db.pending, (∃ row' ∈ sys'.shared.db.pending, row'.id = row.id) ∨
    ∃ result ∈ sys.shared.db.results, result.run = row.run ∧
      ∃ outcome ∈ sys.shared.egress, ∃ observedAt, result = resultRow outcome observedAt

/-- Nobody but the nodes sends reports. -/
def nodesReport (_ : System) : Move Tid Choice Event → Prop
  | .event (.clientFrame _ msg) => ∀ req, msg.body ≠ some (.reportResult req)
  | _ => True

/-! ## What is said stays true -/

theorem TakenUp.mono (h : TakenUp past nodeId runId) (hpast : past ⊆ past') :
    TakenUp past' nodeId runId := by
  obtain ⟨p, hp, hrest⟩ := h
  exact ⟨p, hpast hp, hrest⟩

theorem Honest.mono (h : Honest setup past w req) (hpast : past ⊆ past')
    (hegress : w.egress ⊆ w'.egress) : Honest setup past' w' req := by
  rcases h with h | ⟨d, observedAt, heq, htaken⟩
  · exact .inl (hegress h)
  · exact .inr ⟨d, observedAt, heq, htaken.mono hpast⟩

theorem Settled.mono {run : NodeId × RunId} (h : Settled setup past w run) (hpast : past ⊆ past')
    (hegress : w.egress ⊆ w'.egress) (hresults : ∀ row ∈ w.db.results, row ∈ w'.db.results) :
    Settled setup past' w' run := by
  obtain ⟨row, hrow, hrun, req, observedAt, heq, hreq⟩ := h
  exact ⟨row, hresults row hrow, hrun, req, observedAt, heq, hreq.mono hpast hegress⟩

/-! ## What a move does to the nodes -/

/-- The nodes have seen the same runs and spool nothing new, and nothing is sent to the center. -/
structure World.SameNodes (w w' : World) : Prop where
  seen : ∀ nodeId, (w'.hosts nodeId).seen = (w.hosts nodeId).seen
  spool : ∀ nodeId, (w'.hosts nodeId).spool ⊆ (w.hosts nodeId).spool
  egress : w'.egress = w.egress
  inbound : ∀ s, (w'.streams s).inbound = (w.streams s).inbound

theorem World.SameNodes.refl (w : World) : w.SameNodes w :=
  ⟨fun _ => rfl, fun _ => List.Subset.refl _, rfl, fun _ => rfl⟩

/-- The stream of a session changes, but for what is sent to the center. -/
theorem World.SameNodes.setStream (w : World) {s : SessionId} {stream : Stream}
    (h : stream.inbound = (w.streams s).inbound) : w.SameNodes (w.setStream s stream) := by
  refine ⟨fun _ => rfl, fun _ => List.Subset.refl _, rfl, fun s' => ?_⟩
  rw [setStream_streams]
  split
  · next hs => rw [hs, h]
  · rfl

theorem setHost_hosts (w : World) (nodeId nodeId' : NodeId) (host : Host) :
    (w.setHost nodeId host).hosts nodeId' = if nodeId' = nodeId then host else w.hosts nodeId' := by
  simp [World.setHost, Function.update_apply]

/-- A node changes, but for what it has seen, and its spool gets no new items. -/
theorem World.SameNodes.setHost (w : World) {nodeId : NodeId} {host : Host}
    (hseen : host.seen = (w.hosts nodeId).seen) (hspool : host.spool ⊆ (w.hosts nodeId).spool) :
    w.SameNodes (w.setHost nodeId host) := by
  refine ⟨fun n => ?_, fun n => ?_, rfl, fun _ => rfl⟩
  · rw [setHost_hosts]
    split
    · next hn => rw [hn, hseen]
    · rfl
  · rw [setHost_hosts]
    split
    · next hn =>
      rw [hn]
      exact hspool
    · exact List.Subset.refl _

/-- What an operation does to the nodes, to what is sent to the center, and to the history of the
task. -/
inductive HostStep (t : Tid) (w : World) (loc : HostLoc) : Op → World → HostLoc → Prop where
  | sent (nodeId : NodeId) (task : HostTask) (tx : SessionId) (msg : ClientMessage) (w' : World)
    (ht : t = .host nodeId task) (hhosts : w'.hosts = w.hosts) (hegress : w'.egress = w.egress)
    (hinbound : ∀ s m, m ∈ (w'.streams s).inbound → m ∈ (w.streams s).inbound ∨ m = msg) :
    HostStep t w loc (.host (.clientSend tx msg)) w' loc
  | taken (nodeId : NodeId) (task : HostTask) (runId : RunId) (ht : t = .host nodeId task)
    (hnew : runId ∉ (w.hosts nodeId).seen) :
    HostStep t w loc (.host (.seenInsert runId))
      (w.setHost nodeId { w.hosts nodeId with seen := runId :: (w.hosts nodeId).seen }) loc
  | duplicate (nodeId : NodeId) (task : HostTask) (runId : RunId) (ht : t = .host nodeId task)
    (hseen : runId ∈ (w.hosts nodeId).seen) :
    HostStep t w loc (.host (.seenInsert runId)) w
      { loc with duplicates := runId :: loc.duplicates }
  | ended (outcome : ReportResultRequest) :
    HostStep t w loc (.host (.writeEgress outcome)) { w with egress := outcome :: w.egress }
      { loc with outcomes := outcome :: loc.outcomes }
  | spooled (nodeId : NodeId) (task : HostTask) (item : PendingReport)
    (ht : t = .host nodeId task) :
    HostStep t w loc (.host (.spoolAppend item))
      (w.setHost nodeId { w.hosts nodeId with spool := (w.hosts nodeId).spool ++ [item] }) loc
  | read (nodeId : NodeId) (task : HostTask) (ht : t = .host nodeId task) :
    HostStep t w loc (.host .spoolRead) w { loc with drained := (w.hosts nodeId).spool }
  | other (op : Op) (w' : World) (hsame : w.SameNodes w') : HostStep t w loc op w' loc

theorem execHost_host {op : HostOp} {reply : op.Reply} {loc : Loc}
    (h : execHost setup t c op w = some (reply, w')) :
    HostStep t w loc.host (.host op) w' (note (.host op) reply loc).host := by
  cases t with
  | session s => cases h
  | request r => cases h
  | host nodeId task =>
    cases op with
    | sessionOut =>
      cases h
      exact .other _ _ (.refl w)
    | clientSend tx msg =>
      simp only [execHost, Option.some.injEq, Prod.mk.injEq] at h
      obtain ⟨-, rfl⟩ := h
      refine .sent nodeId task tx msg _ rfl rfl rfl fun s m hm => ?_
      rw [setStream_streams] at hm
      split at hm
      · next hs =>
        subst hs
        cases hlink : (w.streams s).upLink <;> rw [hlink] at hm
        · rcases List.mem_append.mp hm with hm | hm
          · exact .inl hm
          · exact .inr (List.mem_singleton.mp hm)
        · exact .inl hm
        · exact .inl hm
      · exact .inl hm
    | seenInsert runId =>
      simp only [execHost] at h
      split at h
      · next hseen =>
        cases h
        exact .duplicate nodeId task runId rfl hseen
      · next hnew =>
        cases h
        exact .taken nodeId task runId rfl hnew
    | findSpec specId =>
      have hsame : w' = w := by
        simp only [execHost] at h
        split at h
        · cases h
          rfl
        · split at h <;> cases h <;> rfl
      rw [hsame]
      exact .other _ _ (.refl w)
    | applyConfig generation specsJson schedulesJson =>
      simp only [execHost] at h
      split at h
      · cases h
        exact .other _ _ (.setHost w rfl (List.Subset.refl _))
      · cases h
        exact .other _ _ (.refl w)
    | executeSpec spec runId =>
      cases h
      exact .other _ _ (.refl w)
    | writeEgress outcome =>
      cases h
      exact .ended outcome
    | spoolAppend item =>
      simp only [execHost] at h
      split at h
      · cases h
        exact .other _ _ (.refl w)
      · cases h
        exact .spooled nodeId task item rfl
    | spoolRead =>
      simp only [execHost, Option.some.injEq, Prod.mk.injEq] at h
      obtain ⟨hreply, rfl⟩ := h
      split at hreply
      · subst hreply
        exact .other _ _ (.refl w)
      · subst hreply
        exact .read nodeId task rfl
    | spoolClear =>
      simp only [execHost, Option.some.injEq, Prod.mk.injEq, true_and] at h
      subst h
      split
      · exact .other _ _ (.refl w)
      · exact .other _ _ (.setHost w rfl (List.nil_subset _))

theorem noteSession_host (op : SessionOp) (reply : op.Reply) (loc : Loc) :
    (noteSession op reply loc).host = loc.host := by
  cases op with
  | streamSend msg => cases reply <;> rfl
  | _ => rfl

theorem noteDb_host (op : DbOp) (reply : op.Reply) (loc : Loc) :
    (noteDb op reply loc).host = loc.host := by
  unfold noteDb
  split <;> rfl

theorem noteHub_host (op : HubOp) (reply : op.Reply) (loc : Loc) :
    (noteHub op reply loc).host = loc.host := by
  unfold noteHub
  split <;> rfl

/-- Operations of the center leave the nodes alone. -/
theorem execHub_nodes {op : HubOp} {reply : op.Reply}
    (h : execHub t locs c op w = some (reply, w')) : w.SameNodes w' := by
  cases op with
  | pushSend tx msg =>
    simp only [execHub, Option.some.injEq, Prod.mk.injEq] at h
    obtain ⟨-, rfl⟩ := h
    refine .setStream w ?_
    unfold pushSendTo
    split <;> rfl
  | register nodeId | unregister nodeId =>
    cases t <;> cases h
    exact ⟨fun _ => rfl, fun _ => List.Subset.refl _, rfl, fun _ => rfl⟩
  | evict nodeId =>
    cases t with
    | session s =>
      simp only [execHub, Option.some.injEq, Prod.mk.injEq, true_and] at h
      subst h
      split <;> exact ⟨fun _ => rfl, fun _ => List.Subset.refl _, rfl, fun _ => rfl⟩
    | request r => cases h
    | host n task => cases h
  | issueTicket nodeId sha256 =>
    simp only [execHub] at h
    split at h <;> cases h
    exact ⟨fun _ => rfl, fun _ => List.Subset.refl _, rfl, fun _ => rfl⟩
  | sender nodeId | isConnected nodeId | noteAbi nodeId abi | skillAbi nodeId =>
    cases h
    exact ⟨fun _ => rfl, fun _ => List.Subset.refl _, rfl, fun _ => rfl⟩

theorem execSession_nodes {op : SessionOp} {reply : op.Reply}
    (h : execSession t op w = some (reply, w')) : w.SameNodes w' := by
  cases op with
  | streamSend msg =>
    cases t with
    | session s =>
      simp only [execSession, Option.some.injEq, Prod.mk.injEq] at h
      obtain ⟨-, rfl⟩ := h
      exact .setStream w rfl
    | request r => cases h
    | host n task => cases h
  | bind nodeId gate =>
    cases t <;> cases h
    exact ⟨fun _ => rfl, fun _ => List.Subset.refl _, rfl, fun _ => rfl⟩
  | setGate gate | leave =>
    cases h
    exact .refl w

theorem exec_host {reply : op.Reply} {loc : Loc}
    (h : exec setup t locs op c w = some (reply, w')) :
    HostStep t w loc.host op w' (note op reply loc).host := by
  cases op with
  | db op =>
    simp only [exec, Option.some.injEq, Prod.mk.injEq] at h
    obtain ⟨-, rfl⟩ := h
    rw [show (note (.db op) reply loc).host = loc.host from noteDb_host op reply loc]
    exact .other _ _ ⟨fun _ => rfl, fun _ => List.Subset.refl _, rfl, fun _ => rfl⟩
  | hub op =>
    rw [show (note (.hub op) reply loc).host = loc.host from noteHub_host op reply loc]
    exact .other _ _ (execHub_nodes h)
  | session op =>
    rw [show (note (.session op) reply loc).host = loc.host from noteSession_host op reply loc]
    exact .other _ _ (execSession_nodes h)
  | request op =>
    cases op with
    | respond answer =>
      cases t <;> cases h
      exact .other _ _ ⟨fun _ => rfl, fun _ => List.Subset.refl _, rfl, fun _ => rfl⟩
    | checkSubmit | ensureProdConfirm nodeId | storeResolution =>
      cases h
      exact .other _ _ (.refl w)
  | host op => exact execHost_host h
  | newUuid =>
    simp only [exec] at h
    split at h <;> cases h
    exact .other _ _ ⟨fun _ => rfl, fun _ => List.Subset.refl _, rfl, fun _ => rfl⟩
  | now =>
    cases h
    exact .other _ _ (.refl w)

section
variable {loc loc' : HostLoc} {task : HostTask}

theorem HostStep.egress (h : HostStep t w loc op w' loc') : w.egress ⊆ w'.egress := by
  cases h with
  | sent nodeId task tx msg w' ht hhosts hegress hinbound => rw [hegress]; exact fun _ h => h
  | ended outcome => exact List.subset_cons_self _ _
  | other op w' hsame => rw [hsame.egress]; exact fun _ h => h
  | _ => exact fun _ h => h

theorem HostStep.seen (h : HostStep t w loc op w' loc') (hrun : runId ∈ (w'.hosts nodeId).seen) :
    runId ∈ (w.hosts nodeId).seen ∨ ∃ task, t = .host nodeId task ∧
      op = .host (.seenInsert runId) ∧ runId ∉ (w.hosts nodeId).seen := by
  cases h with
  | sent nodeId' task tx msg w' ht hhosts hegress hinbound => exact .inl (hhosts ▸ hrun)
  | taken nodeId' task runId' ht hnew =>
    rw [setHost_hosts] at hrun
    split at hrun
    · next hn =>
      subst hn
      rcases List.mem_cons.mp hrun with rfl | hrun
      · exact .inr ⟨task, ht, rfl, hnew⟩
      · exact .inl hrun
    · exact .inl hrun
  | spooled nodeId' task item ht =>
    rw [setHost_hosts] at hrun
    split at hrun
    · next hn =>
      subst hn
      exact .inl hrun
    · exact .inl hrun
  | other op w' hsame => exact .inl (hsame.seen nodeId ▸ hrun)
  | _ => exact .inl hrun

theorem HostStep.spool {item : PendingReport} (h : HostStep t w loc op w' loc')
    (hitem : item ∈ (w'.hosts nodeId).spool) : item ∈ (w.hosts nodeId).spool ∨
      ∃ task, t = .host nodeId task ∧ op = .host (.spoolAppend item) := by
  cases h with
  | sent nodeId' task tx msg w' ht hhosts hegress hinbound => exact .inl (hhosts ▸ hitem)
  | taken nodeId' task runId' ht hnew =>
    rw [setHost_hosts] at hitem
    split at hitem
    · next hn =>
      subst hn
      exact .inl hitem
    · exact .inl hitem
  | spooled nodeId' task item' ht =>
    rw [setHost_hosts] at hitem
    split at hitem
    · next hn =>
      subst hn
      rcases List.mem_append.mp hitem with hitem | hitem
      · exact .inl hitem
      · exact .inr ⟨task, ht, by rw [List.mem_singleton.mp hitem]⟩
    · exact .inl hitem
  | other op w' hsame => exact .inl (hsame.spool nodeId hitem)
  | _ => exact .inl hitem

theorem HostStep.inbound {s : SessionId} {msg : ClientMessage} (h : HostStep t w loc op w' loc')
    (hmsg : msg ∈ (w'.streams s).inbound) : msg ∈ (w.streams s).inbound ∨
      ∃ nodeId task tx, t = .host nodeId task ∧ op = .host (.clientSend tx msg) := by
  cases h with
  | sent nodeId task tx msg' w' ht hhosts hegress hinbound =>
    rcases hinbound s msg hmsg with hold | rfl
    · exact .inl hold
    · exact .inr ⟨nodeId, task, tx, ht, rfl⟩
  | other op w' hsame => exact .inl (hsame.inbound s ▸ hmsg)
  | _ => exact .inl hmsg

theorem HostStep.duplicates (h : HostStep t w loc op w' loc') (hrun : runId ∈ loc'.duplicates) :
    runId ∈ loc.duplicates ∨
      ∃ nodeId task, t = .host nodeId task ∧ runId ∈ (w.hosts nodeId).seen := by
  cases h with
  | duplicate nodeId task runId' ht hseen =>
    rcases List.mem_cons.mp hrun with rfl | hrun
    · exact .inr ⟨nodeId, task, ht, hseen⟩
    · exact .inl hrun
  | _ => exact .inl hrun

theorem HostStep.outcomes (h : HostStep t w loc op w' loc') (hold : loc.outcomes ⊆ w.egress) :
    loc'.outcomes ⊆ w'.egress := by
  cases h with
  | ended outcome => exact List.cons_subset_cons _ hold
  | sent nodeId task tx msg w' ht hhosts hegress hinbound => rwa [hegress]
  | other op w' hsame => rwa [hsame.egress]
  | _ => exact hold

theorem HostStep.drained {item : PendingReport} (h : HostStep t w loc op w' loc')
    (hitem : item ∈ loc'.drained) : item ∈ loc.drained ∨
      ∃ nodeId task, t = .host nodeId task ∧ item ∈ (w.hosts nodeId).spool := by
  cases h with
  | read nodeId task ht => exact .inr ⟨nodeId, task, ht, hitem⟩
  | _ => exact .inl hitem

end

/-! ### Events -/

theorem Fired.nodes {e : Event} (h : Fired setup sys e w' locs) :
    (∀ nodeId, (w'.hosts nodeId).seen ⊆ (sys.shared.hosts nodeId).seen ∧
      (w'.hosts nodeId).spool = (sys.shared.hosts nodeId).spool) ∧
    w'.egress = sys.shared.egress := by
  cases h with
  | hostConnect nodeId s hphase | hostHangUp nodeId =>
    refine ⟨fun n => ?_, rfl⟩
    rw [setHost_hosts]
    split
    · next hn =>
      subst hn
      exact ⟨List.Subset.refl _, rfl⟩
    · exact ⟨List.Subset.refl _, rfl⟩
  | hostRestart nodeId =>
    refine ⟨fun n => ?_, rfl⟩
    rw [setHost_hosts]
    split
    · next hn =>
      subst hn
      exact ⟨List.nil_subset _, rfl⟩
    · exact ⟨List.Subset.refl _, rfl⟩
  | _ => exact ⟨fun _ => ⟨List.Subset.refl _, rfl⟩, rfl⟩

theorem Fired.inbound {e : Event} {s : SessionId} {msg : ClientMessage}
    (h : Fired setup sys e w' locs) (hmsg : msg ∈ (w'.streams s).inbound) :
    msg ∈ (sys.shared.streams s).inbound ∨ e = .clientFrame s msg := by
  have hstream : ∀ {s' stream}, msg ∈ ((sys.shared.setStream s' stream).streams s).inbound →
      (msg ∈ stream.inbound → msg ∈ (sys.shared.streams s').inbound ∨ e = .clientFrame s' msg) →
      msg ∈ (sys.shared.streams s).inbound ∨ e = .clientFrame s msg := by
    intro s' stream hmem hnew
    rw [setStream_streams] at hmem
    split at hmem
    · next hs =>
      subst hs
      exact hnew hmem
    · exact .inl hmem
  cases h with
  | connect s' hphase | hostConnect nodeId s' hphase =>
    exact hstream hmsg fun hnew => absurd hnew List.not_mem_nil
  | clientFrame s' msg' =>
    refine hstream hmsg fun hnew => ?_
    cases hlink : (sys.shared.streams s').upLink <;> rw [hlink] at hnew
    · rcases List.mem_append.mp hnew with hnew | hnew
      · exact .inl hnew
      · exact .inr (by rw [List.mem_singleton.mp hnew])
    · exact .inl hnew
    · exact .inl hnew
  | frame s' msg' rest hwait hin =>
    exact hstream hmsg fun hnew => .inl (hin ▸ .tail _ hnew)
  | lose s' inbound wire => exact hstream hmsg fun hnew => .inl (List.mem_of_mem_take hnew)
  | push s' msg' rest hwait hpush => exact hstream hmsg .inl
  | closeUp s' | closeDown s' => exact hstream hmsg .inl
  | hostFrame nodeId s' msg' rest hwire => exact hstream hmsg .inl
  | _ => exact .inl hmsg

theorem hostOf_update (locs : Tid → Loc) (t : Tid) (loc : Loc) (nodeId : NodeId) (task : HostTask) :
    hostOf (Function.update locs t loc) nodeId task =
      if t = .host nodeId task then loc.host else hostOf locs nodeId task := by
  unfold hostOf
  by_cases h : t = .host nodeId task
  · subst h
    simp
  · rw [if_neg h, Function.update_of_ne (Ne.symm h)]

theorem Fired.hostOf {e : Event} {task : HostTask} (h : Fired setup sys e w' locs) :
    hostOf locs nodeId task = Control.hostOf sys.loc nodeId task := by
  cases h with
  | connect s | hostConnect nodeId s | frame s msg | push s msg | timer s due | request r command
  | cancel r => rw [hostOf_update, if_neg (by simp)]
  | _ => rfl

/-- The body in hand was there before, or is that of the message that the session takes. -/
theorem Fired.body {e : Event} {s : SessionId} {body : ClientBody} (h : Fired setup sys e w' locs)
    (hbody : (sessionOf locs s).body = some body) : (sessionOf sys.loc s).body = some body ∨
      ∃ msg ∈ (sys.shared.streams s).inbound, msg.body = some body := by
  cases h with
  | connect s' | hostConnect nodeId s' | push s' msg | timer s' due =>
    rw [sessionOf_update] at hbody
    split at hbody
    · cases hbody
    · exact .inl hbody
  | frame s' msg rest hwait hin =>
    rw [sessionOf_update] at hbody
    split at hbody
    · next hs =>
      cases hs
      exact .inr ⟨msg, hin ▸ .head _, hbody⟩
    · exact .inl hbody
  | request r command | cancel r =>
    rw [sessionOf_update, if_neg (by simp)] at hbody
    exact .inl hbody
  | _ => exact .inl hbody

/-! ## The invariant -/

structure Told (setup : Setup) (past : List (System × Move Tid Choice Event)) (w : World)
    (locs : Tid → Loc) : Prop where
  seen : ∀ nodeId, ∀ runId ∈ (w.hosts nodeId).seen, TakenUp past nodeId runId
  duplicates : ∀ nodeId task, ∀ runId ∈ (hostOf locs nodeId task).duplicates,
    TakenUp past nodeId runId
  outcomes : ∀ nodeId task, (hostOf locs nodeId task).outcomes ⊆ w.egress
  drained : ∀ nodeId task, ∀ item ∈ (hostOf locs nodeId task).drained,
    Honest setup past w item.report
  spooled : ∀ nodeId, ∀ item ∈ (w.hosts nodeId).spool, Honest setup past w item.report
  sent : ∀ s, ∀ msg ∈ (w.streams s).inbound, ∀ req, msg.body = some (.reportResult req) →
    Honest setup past w req
  handling : ∀ s req, (sessionOf locs s).body = some (.reportResult req) → Honest setup past w req
  stored : ∀ s, ∀ run ∈ (sessionOf locs s).stored, Settled setup past w run

/-- A report of the node is honest. -/
theorem Told.reportable {task : HostTask} (h : Told setup past w locs)
    (hreport : reportable setup nodeId (hostOf locs nodeId task) req) : Honest setup past w req := by
  rcases hreport with houtcome | ⟨d, observedAt, rfl, hduplicate⟩ | ⟨item, hitem, rfl⟩
  · exact .inl (h.outcomes nodeId task houtcome)
  · exact .inr ⟨d, observedAt, rfl, h.duplicates nodeId task d.runId hduplicate⟩
  · exact h.drained nodeId task item hitem

theorem told_initial : Told setup [] (initial setup).shared (initial setup).loc :=
  ⟨fun _ _ h => (by cases h), fun _ _ _ h => (by cases h), fun _ _ _ h => (by cases h),
    fun _ _ _ h => (by cases h), fun _ _ h => (by cases h), fun _ _ h => (by cases h),
    fun _ _ h => (by cases h), fun _ _ h => (by cases h)⟩

theorem Told.act {reply : op.Reply} (h : Told setup past sys.shared sys.loc)
    (hop : sys.about t op) (hpre : preOp setup t op (sys.loc t))
    (he : exec setup t sys.loc op c sys.shared = some (reply, w')) :
    Told setup ((sys, .act t c) :: past) w'
      (Function.update sys.loc t (note op reply (sys.loc t))) := by
  have hstep : HostStep t sys.shared (sys.loc t).host op w' (note op reply (sys.loc t)).host :=
    exec_host he
  have hpast := List.subset_cons_self (sys, Move.act t c) past
  have hresults := (exec_kept he).results
  have hold : ∀ {req}, Honest setup past sys.shared req →
      Honest setup ((sys, .act t c) :: past) w' req := fun hreq => hreq.mono hpast hstep.egress
  constructor
  · intro n r hr
    rcases hstep.seen hr with hr | ⟨task, rfl, rfl, hnew⟩
    · exact (h.seen n r hr).mono hpast
    · exact ⟨_, .head _, task, c, rfl, hop, hnew⟩
  · intro n task r hr
    rw [hostOf_update] at hr
    split at hr
    · next ht =>
      rcases hstep.duplicates hr with hr | ⟨n', task', ht', hseen⟩
      · exact (h.duplicates n task r (by rwa [hostOf, ← ht])).mono hpast
      · rw [ht] at ht'
        cases ht'
        exact (h.seen n r hseen).mono hpast
    · exact (h.duplicates n task r hr).mono hpast
  · intro n task
    rw [hostOf_update]
    split
    · next ht =>
      refine hstep.outcomes ?_
      rw [ht]
      exact h.outcomes n task
    · exact List.Subset.trans (h.outcomes n task) hstep.egress
  · intro n task item hitem
    rw [hostOf_update] at hitem
    split at hitem
    · next ht =>
      rcases hstep.drained hitem with hitem | ⟨n', task', ht', hspool⟩
      · exact hold (h.drained n task item (by rwa [hostOf, ← ht]))
      · exact hold (h.spooled n' item hspool)
    · exact hold (h.drained n task item hitem)
  · intro n item hitem
    rcases hstep.spool hitem with hitem | ⟨task, rfl, rfl⟩
    · exact hold (h.spooled n item hitem)
    · exact hold (h.reportable hpre)
  · intro s msg hmsg req hbody
    rcases hstep.inbound hmsg with hmsg | ⟨n, task, tx, rfl, rfl⟩
    · exact hold (h.sent s msg hmsg req hbody)
    · exact hold (h.reportable (hpre req hbody))
  · intro s req hbody
    refine hold (h.handling s req ?_)
    rw [sessionOf_update] at hbody
    split at hbody
    · next ht =>
      subst ht
      rw [SessionLoc.body, (note_keeps op reply _).handling] at hbody
      exact hbody
    · exact hbody
  · intro s run hrun
    have hkept : run ∈ (sessionOf sys.loc s).stored →
        Settled setup ((sys, .act t c) :: past) w' run :=
      fun hstored => (h.stored s run hstored).mono hpast hstep.egress hresults
    rw [sessionOf_update] at hrun
    split at hrun
    · next ht =>
      subst ht
      rcases exec_stored _ he hrun with hstored | ⟨row, rfl, rfl, hrow⟩
      · exact hkept hstored
      · obtain ⟨req, observedAt, hbody, heq⟩ := hpre
        exact ⟨row, hrow, rfl, req, observedAt, heq, hold (h.handling s req hbody)⟩
    · exact hkept hrun

theorem Told.event {e : Event} (h : Told setup past sys.shared sys.loc)
    (hok : nodesReport sys (.event e)) (he : Fired setup sys e w' locs) :
    Told setup ((sys, .event e) :: past) w' locs := by
  have hpast := List.subset_cons_self (sys, Move.event e) past
  obtain ⟨hhosts, hegress⟩ := he.nodes
  have hgrows : sys.shared.egress ⊆ w'.egress := by rw [hegress]; exact fun _ h => h
  have hold : ∀ {req}, Honest setup past sys.shared req →
      Honest setup ((sys, .event e) :: past) w' req := fun hreq => hreq.mono hpast hgrows
  constructor
  · exact fun n r hr => (h.seen n r ((hhosts n).1 hr)).mono hpast
  · intro n task r hr
    rw [he.hostOf] at hr
    exact (h.duplicates n task r hr).mono hpast
  · intro n task
    rw [he.hostOf, hegress]
    exact h.outcomes n task
  · intro n task item hitem
    rw [he.hostOf] at hitem
    exact hold (h.drained n task item hitem)
  · intro n item hitem
    rw [(hhosts n).2] at hitem
    exact hold (h.spooled n item hitem)
  · intro s msg hmsg req hbody
    rcases he.inbound hmsg with hmsg | rfl
    · exact hold (h.sent s msg hmsg req hbody)
    · exact absurd hbody (hok req)
  · intro s req hbody
    rcases he.body hbody with hbody | ⟨msg, hmsg, hbody⟩
    · exact hold (h.handling s req hbody)
    · exact hold (h.sent s msg hmsg req hbody)
  · intro s run hrun
    refine (h.stored s run (he.stored hrun)).mono hpast hgrows fun row hrow => ?_
    rw [he.tables.2]
    exact hrow

theorem told_of_along (h : (control setup).Along nodesReport (initial setup) past sys) :
    Told setup past sys.shared sys.loc := by
  refine h.invariant (P := Told setup) control_obeys control_sound told_initial ?_ ?_
  · exact fun past sys t op c reply w' _ htold _ hop hpre _ he => htold.act hop hpre.2 he
  · intro past sys e sys' halong htold hok hfire
    exact htold.event hok (fire_cases (sound_of_reaches halong.reaches) hfire)

/-- A row goes away only when the center has stored the outcome of its run, or the answer of the
node that it had taken up the run before. -/
theorem acked_after_report {sys' : System}
    (h : (control setup).Along nodesReport (initial setup) past sys)
    (hstep : (control setup).step sys m = some sys') : AckedSettled setup past sys sys' := by
  have htold := told_of_along h
  intro row hrow
  cases m with
  | act t c =>
    obtain ⟨op, next, reply, w', hp, he, rfl⟩ := (control setup).act_eq_some.mp hstep
    have hpre := ((sound_of_reaches h.reaches).pre ⟨next, hp⟩).2
    rcases (exec_kept he).pending row hrow with hacked | ⟨row', hrow', hid, -⟩
    · cases op with
      | db op =>
        cases op with
        | ackPendingDispatch nodeId runId =>
          cases t with
          | session s => exact .inr (htold.stored s row.run (hacked ▸ hpre))
          | request r => cases ((sound_of_reaches h.reaches).pre ⟨next, hp⟩).1
          | host n task => cases ((sound_of_reaches h.reaches).pre ⟨next, hp⟩).1
        | _ => cases hacked
      | _ => cases hacked
    · exact .inl ⟨row', hrow', hid⟩
  | event e =>
    have htables := (fire_cases (sound_of_reaches h.reaches) hstep).tables.1
    exact .inl ⟨row, htables ▸ hrow, rfl⟩

/-! ## Runs -/

def byNodes (_ : System) : Move Tid Choice Event → Bool
  | .event (.clientFrame _ ⟨_, some (.reportResult _)⟩) => false
  | _ => true

theorem nodesReport_of_byNodes (h : byNodes sys m = true) : nodesReport sys m := by
  unfold nodesReport
  split
  · next s msg =>
    intro req hbody
    obtain ⟨requestId, body⟩ := msg
    cases hbody
    cases h
  · trivial

/-- The node performs its next operations without faults. -/
def hostActs (n : Nat) : List (Move Tid Choice Event) :=
  List.replicate n (.act (.host "node" .session) .plain)

/-- The node opens a stream, registers and is ready. -/
def hostReady (s : SessionId) : List (Move Tid Choice Event) :=
  .event (.hostConnect "node" s) :: hostActs 3 ++ clientTurn s (registration "node") 7 ++
  clientTurn s (.nodeReady "node" 1) 5

/-- The node runs a dispatch, up to the send of its report. -/
def dispatchedRun : List (Move Tid Choice Event) :=
  hostReady 0 ++ sessionActs 0 1 ++ targetRequest 0 "node" "run" ++
  List.replicate 3 (.act (.request 0) .plain) ++
  [.event (.push 0), .act (.session 0) .plain] ++ List.replicate 3 (.event (.hostFrame "node")) ++
  hostActs 4 ++ [.act (.host "node" .session) (.name "report")] ++ hostActs 1

/-- The report arrives, and is stored. -/
def reportStored : List (Move Tid Choice Event) :=
  dispatchedRun ++ hostActs 1 ++ [.event (.frame 0)] ++ sessionActs 0 2

/-- The stream breaks under the report.  The node connects again, and gets the run again. -/
def reportLost : List (Move Tid Choice Event) :=
  dispatchedRun ++ [.event (.lose 0 0 0)] ++ hostActs 1 ++ [.event (.hostHangUp "node")] ++
  hostReady 1 ++ [.act (.session 1) (.name "again")] ++ sessionActs 1 2 ++
  List.replicate 2 (.event (.hostFrame "node")) ++ hostActs 2 ++
  [.act (.host "node" .session) (.name "duplicate")] ++ hostActs 2 ++
  [.event (.frame 1)] ++ sessionActs 1 2

/-- The row of a run whose report was stored goes away. -/
theorem acked_after_report_sample : ∃ past, ∃ sys sys' : System,
    (control sampleSetup).step sys (.act (.session 0) .plain) = some sys' ∧
      sys.shared.db.pending.map (·.run) = [("node", "run")] ∧ sys'.shared.db.pending = [] ∧
      AckedSettled sampleSetup past sys sys' := by
  have hrun : ((control sampleSetup).run byNodes (initial sampleSetup) reportStored).any
      (fun sys => sys.shared.db.pending.map (·.run) = [("node", "run")] &&
        ((control sampleSetup).step sys (.act (.session 0) .plain)).any
          fun sys' => sys'.shared.db.pending.isEmpty) = true := by
    decide +kernel
  obtain ⟨sys, hreach, hcheck⟩ :=
    Machine.exists_reaches_of_run (fun _ _ => nodesReport_of_byNodes) hrun
  obtain ⟨past, halong⟩ := hreach.along
  simp only [Bool.and_eq_true, decide_eq_true_eq] at hcheck
  obtain ⟨hpending, hstep⟩ := hcheck
  obtain ⟨sys', hsys', hempty⟩ := (Option.any_eq_true _ _).mp hstep
  exact ⟨past, sys, sys', hsys', hpending, List.isEmpty_iff.mp hempty,
    acked_after_report halong hsys'⟩

/-- The answer to the second delivery drops the row of a run whose outcome was lost. -/
theorem duplicate_acks_lost_report : ∃ past, ∃ sys sys' : System,
    (control sampleSetup).Along nodesReport (initial sampleSetup) past sys ∧
      (control sampleSetup).step sys (.act (.session 1) .plain) = some sys' ∧
      ¬ AckedGenuine sys sys' := by
  have hrun : ((control sampleSetup).run byNodes (initial sampleSetup) reportLost).any
      (fun sys => sys.shared.db.pending.map (·.run) = [("node", "run")] &&
        sys.shared.db.results.map (·.status) = ["ok"] &&
        sys.shared.egress.map (·.status) = ["failed"] &&
        ((control sampleSetup).step sys (.act (.session 1) .plain)).any
          fun sys' => sys'.shared.db.pending.isEmpty) = true := by
    decide +kernel
  obtain ⟨sys, hreach, hcheck⟩ :=
    Machine.exists_reaches_of_run (fun _ _ => nodesReport_of_byNodes) hrun
  obtain ⟨past, halong⟩ := hreach.along
  simp only [Bool.and_eq_true, decide_eq_true_eq] at hcheck
  obtain ⟨⟨⟨hpending, hresults⟩, hegress⟩, hstep⟩ := hcheck
  obtain ⟨sys', hsys', hempty⟩ := (Option.any_eq_true _ _).mp hstep
  refine ⟨past, sys, sys', halong, hsys', fun hacked => ?_⟩
  obtain ⟨row, rows, hrows, -⟩ := List.map_eq_cons_iff.mp hpending
  rcases hacked row (hrows ▸ .head _) with ⟨row', hrow', -⟩ | ⟨result, hresult, -, outcome,
    houtcome, observedAt, heq⟩
  · rw [List.isEmpty_iff.mp hempty] at hrow'
    cases hrow'
  · have hok := List.mem_map_of_mem (f := fun row : ResultRow => row.status) hresult
    have hfailed := List.mem_map_of_mem (f := fun req : ReportResultRequest => req.status) houtcome
    rw [hresults, List.mem_singleton] at hok
    rw [hegress, List.mem_singleton] at hfailed
    rw [heq] at hok
    exact absurd (hok.symm.trans hfailed) (by decide)

end Novbot.Control
