import Novbot.Control.Tables

/-!
# Accepted runs are durable

`dispatch_target` writes a row for each run before it sends anything, and a row
is removed only when a result of its run is stored.  So what it answers as
accepted is pending or reported, whatever happens later.

`dispatch_to_node` tries the node's sender first and writes a row only when the
send fails.  A run that it sends live has no row, and is lost with the stream.
`durable` excludes these sends.
-/

namespace Novbot.Control

open Concurrent

variable {setup : Setup} {sys : System} {w w' : World} {locs : Tid → Loc} {t : Tid}
  {op : Op} {c : Choice}

/-- Each run that a request answered as accepted is pending or has a result. -/
def AcceptedKept (sys : System) : Prop :=
  ∀ r runs warnings, sys.shared.answers r = some (.accepted runs warnings) → ∀ run ∈ runs,
    sys.shared.db.HasRow (run.nodeId, run.runId) ∨ sys.shared.db.HasResult (run.nodeId, run.runId)

/-- A request that has no committed run to send, which is `dispatch_to_node`,
sends a dispatch only on a channel that is gone. -/
def durable (sys : System) : Move Tid Choice Event → Prop
  | .act (.request r) c => ∀ tx msg, sys.about (.request r) (.hub (.pushSend tx msg)) →
    msg.dispatch? ≠ none → (requestOf sys.loc r).unsent = [] →
    (sessionOf sys.loc tx).phase ≠ .open ∧ c.fail = true
  | _ => True

/-! ## The invariant -/

/-- A run is pending or reported. -/
def Db.Covers (db : Db) (run : NodeId × RunId) : Prop := db.HasRow run ∨ db.HasResult run

/-- What a request did for a run is in the tables. -/
structure RequestLoc.Backed (loc : RequestLoc) (db : Db) : Prop where
  committed : ∀ run ∈ loc.committed, db.Covers run
  queued : ∀ run ∈ loc.queued, db.Covers run
  live : ∀ run ∈ loc.live, run ∈ loc.committed
  unsent : ∀ run ∈ loc.unsent, run ∈ loc.committed

structure Durable (w : World) (locs : Tid → Loc) : Prop where
  stored : ∀ s, ∀ run ∈ (sessionOf locs s).stored, w.db.HasResult run
  requests : ∀ r, (requestOf locs r).Backed w.db
  answered : ∀ r runs warnings, w.answers r = some (.accepted runs warnings) → ∀ run ∈ runs,
    (requestOf locs r).covers (run.nodeId, run.runId)

theorem RequestLoc.Backed.covered {loc : RequestLoc} {db : Db} (h : loc.Backed db)
    {run : NodeId × RunId} (hrun : loc.covers run) : db.Covers run := by
  rcases hrun with hrun | hrun | hrun
  · exact h.committed run hrun
  · exact h.queued run hrun
  · exact h.committed run (h.live run hrun)

theorem RequestLoc.Backed.mono {loc : RequestLoc} {db db' : Db} (h : loc.Backed db)
    (hdb : ∀ run, db.Covers run → db'.Covers run) : loc.Backed db' :=
  ⟨fun run hrun => hdb run (h.committed run hrun), fun run hrun => hdb run (h.queued run hrun),
    h.live, h.unsent⟩

/-- A run stays covered: its rows go only after its result is stored. -/
theorem covers_of_exec {reply : op.Reply} (h : Durable w locs)
    (hpre : preOp setup t op (locs t)) (howner : op.ownedBy t = true)
    (he : exec setup t locs op c w = some (reply, w')) {run : NodeId × RunId}
    (hrun : w.db.Covers run) : w'.db.Covers run := by
  have hkept := exec_kept he
  rcases hrun with hrow | hresult
  · rcases hkept.hasRow hrow with hacked | hrow'
    · unfold Op.acks at hacked
      split at hacked
      · next nodeId runId =>
        subst hacked
        obtain ⟨s, rfl⟩ := Tid.kind_session (eq_of_beq howner).symm
        exact .inr (hkept.hasResult (h.stored s _ hpre))
      · exact hacked.elim
    · exact .inl hrow'
  · exact .inr (hkept.hasResult hresult)

/-- A live send is of a committed run, unless the channel takes a dispatch of
`dispatch_to_node`. -/
theorem live_of_pushSend {r : RequestId} {tx : SessionId} {msg : ServerMessage}
    {run : NodeId × RunId} (hop : sys.about (.request r) (.hub (.pushSend tx msg)))
    (hok : durable sys (.act (.request r) c))
    (hpre : preHub (.pushSend tx msg) (sys.loc (.request r)))
    (he : exec setup (.request r) sys.loc (.hub (.pushSend tx msg)) c sys.shared =
      some (true, w'))
    (hrun : msg.run? = some run) : run ∈ (requestOf sys.loc r).unsent := by
  cases hunsent : (requestOf sys.loc r).unsent with
  | cons head rest =>
    obtain ⟨nodeId, -, -, hnext⟩ := hpre
    obtain ⟨hhead, -⟩ := hnext head rest hunsent
    rw [Option.some.inj (hrun.symm.trans hhead)]
    exact List.mem_cons_self
  | nil =>
    have hdispatch : msg.dispatch? ≠ none := by
      intro hnone
      simp [ServerMessage.run?, hnone] at hrun
    obtain ⟨hphase, hfail⟩ := hok tx msg hop hdispatch hunsent
    simp only [exec, execHub, Option.some.injEq, Prod.mk.injEq] at he
    have hsent := he.1
    unfold pushSendTo at hsent
    split at hsent
    · next hopen => exact absurd hopen hphase
    · rw [hfail] at hsent
      cases hsent

theorem Backed.act {r : RequestId} {reply : op.Reply} (h : Durable sys.shared sys.loc)
    (hok : durable sys (.act (.request r) c)) (hop : sys.about (.request r) op)
    (hpre : preOp setup (.request r) op (sys.loc (.request r)))
    (howner : op.ownedBy (.request r) = true)
    (he : exec setup (.request r) sys.loc op c sys.shared = some (reply, w'))
    {loc : RequestLoc} (hstep : RequestStep (requestOf sys.loc r) op reply loc) :
    loc.Backed w'.db ∧ ∀ run, (requestOf sys.loc r).covers run → loc.covers run := by
  have hcovers : ∀ run, sys.shared.db.Covers run → w'.db.Covers run :=
    fun run hrun => covers_of_exec h hpre howner he hrun
  have hold := (h.requests r).mono hcovers
  cases hstep with
  | queued nodeId runId specId paramsJson =>
    refine ⟨⟨hold.committed, fun run hrun => ?_, hold.live, hold.unsent⟩, fun run hrun => ?_⟩
    · rcases List.mem_cons.mp hrun with rfl | hrun
      · exact .inl (exec_enqueueDispatch he)
      · exact hold.queued run hrun
    · exact hrun.imp_right fun hrun => hrun.imp_left fun hrun => .tail _ hrun
  | committed specId paramsJson planned =>
    refine ⟨⟨fun run hrun => ?_, hold.queued, fun run hrun => ?_, fun run hrun => ?_⟩,
      fun run hrun => ?_⟩
    · rcases List.mem_append.mp hrun with hrun | hrun
      · exact .inl (exec_commitDispatch he hrun)
      · exact hold.committed run hrun
    · exact List.mem_append_right _ (hold.live run hrun)
    · exact List.mem_append_left _ hrun
    · exact hrun.imp_left fun hrun => List.mem_append_right _ hrun
  | pushed tx msg live =>
    refine ⟨⟨hold.committed, hold.queued, fun run hrun => ?_, fun run hrun => ?_⟩,
      fun run hrun => ?_⟩
    · cases live with
      | false => exact hold.live run hrun
      | true =>
        rcases List.mem_append.mp hrun with hrun | hrun
        · have hsent := Option.mem_toList.mp hrun
          exact hold.unsent run (live_of_pushSend hop hok hpre he hsent)
        · exact hold.live run hrun
    · exact hold.unsent run (List.mem_of_mem_tail hrun)
    · refine hrun.imp_right fun hrun => hrun.imp_right fun hrun => ?_
      cases live with
      | false => exact hrun
      | true => exact List.mem_append_right _ hrun
  | absent nodeId =>
    refine ⟨⟨hold.committed, hold.queued, hold.live, fun run hrun => ?_⟩, fun run hrun => hrun⟩
    exact hold.unsent run (List.mem_of_mem_tail hrun)
  | marked nodeId runId => exact ⟨⟨hold.1, hold.2, hold.3, hold.4⟩, fun run hrun => hrun⟩
  | cloned nodeId tx => exact ⟨⟨hold.1, hold.2, hold.3, hold.4⟩, fun run hrun => hrun⟩
  | drawn text => exact ⟨⟨hold.1, hold.2, hold.3, hold.4⟩, fun run hrun => hrun⟩
  | other op reply => exact ⟨hold, fun run hrun => hrun⟩

theorem Durable.act {reply : op.Reply} (h : Durable sys.shared sys.loc)
    (hok : durable sys (.act t c)) (hop : sys.about t op)
    (hpre : preOp setup t op (sys.loc t)) (howner : op.ownedBy t = true)
    (he : exec setup t sys.loc op c sys.shared = some (reply, w')) :
    Durable w' (Function.update sys.loc t (note op reply (sys.loc t))) := by
  have hcovers : ∀ run, sys.shared.db.Covers run → w'.db.Covers run :=
    fun run hrun => covers_of_exec h hpre howner he hrun
  have hrequest : ∀ r, (requestOf (Function.update sys.loc t (note op reply (sys.loc t))) r).Backed
      w'.db ∧ ∀ run, (requestOf sys.loc r).covers run →
        (requestOf (Function.update sys.loc t (note op reply (sys.loc t))) r).covers run := by
    intro r
    rw [requestOf_update]
    split
    · next ht =>
      subst ht
      exact Backed.act h hok hop hpre howner he (note_request op reply _)
    · exact ⟨(h.requests r).mono hcovers, fun run hrun => hrun⟩
  refine ⟨fun s run hrun => ?_, fun r => (hrequest r).1, fun r runs warnings hanswer run hrun => ?_⟩
  · rw [sessionOf_update] at hrun
    split at hrun
    · next ht =>
      subst ht
      rcases exec_stored _ he hrun with hold | ⟨row, -, rfl, hrow⟩
      · exact (exec_kept he).hasResult (h.stored s run hold)
      · exact ⟨row, hrow, rfl⟩
    · exact (exec_kept he).hasResult (h.stored s run hrun)
  · refine (hrequest r).2 _ ?_
    rcases (exec_frame he).2.2 with hsame | ⟨r', answer, rfl, rfl, hupdate⟩
    · rw [hsame] at hanswer
      exact h.answered r runs warnings hanswer run hrun
    · rw [hupdate, Function.update_apply] at hanswer
      split at hanswer
      · next hr =>
        subst hr
        cases hanswer
        exact hpre run hrun
      · exact h.answered r runs warnings hanswer run hrun

theorem Durable.event {e : Event} (h : Durable sys.shared sys.loc)
    (he : Fired setup sys e w' locs) : Durable w' locs := by
  obtain ⟨hpending, hresults⟩ := he.tables
  have hkept : sys.shared.db.Kept w'.db fun _ => False := .of_eq hpending hresults
  have hcovers : ∀ run, sys.shared.db.Covers run → w'.db.Covers run := by
    rintro run (hrow | hresult)
    · exact .inl ((hkept.hasRow hrow).resolve_left id)
    · exact .inr (hkept.hasResult hresult)
  refine ⟨fun s run hrun => ?_, fun r => ?_, fun r runs warnings hanswer run hrun => ?_⟩
  · exact hkept.hasResult (h.stored s run (he.stored hrun))
  · rcases he.request_eq r with hsame | hsame
    · rw [hsame]
      exact (h.requests r).mono hcovers
    · rw [hsame]
      obtain ⟨h₁, h₂, h₃, h₄⟩ := (h.requests r).mono hcovers
      exact ⟨h₁, h₂, h₃, h₄⟩
  · rw [he.answers] at hanswer
    have hold := h.answered r runs warnings hanswer run hrun
    rcases he.request_eq r with hsame | hsame
    · rw [hsame]
      exact hold
    · rw [hsame]
      exact hold

theorem durable_of_reaches (h : (control setup).Reaches durable (initial setup) sys) :
    Durable sys.shared sys.loc := by
  refine h.invariant control_obeys control_sound ?_ ?_ ?_
  · refine ⟨fun _ _ h => (by cases h), fun r => ?_, fun _ _ _ h => (by cases h)⟩
    exact ⟨fun _ h => (by cases h), fun _ h => (by cases h), fun _ h => (by cases h),
      fun _ h => (by cases h)⟩
  · rintro sys t op c reply w' - hinv hok hop ⟨howner, hpre⟩ - he
    exact hinv.act hok hop hpre howner he
  · intro sys e sys' hreach hinv _ hfire
    exact hinv.event (fire_cases (sound_of_reaches hreach) hfire)

/-- In a run of durable steps every accepted run stays pending until its result
is stored. -/
theorem accepted_runs_kept (h : (control setup).Reaches durable (initial setup) sys) :
    AcceptedKept sys := by
  intro r runs warnings hanswer run hrun
  have hinv := durable_of_reaches h
  exact (hinv.requests r).covered (hinv.answered r runs warnings hanswer run hrun)

/-- No request pushes a message. -/
def unsending (sys : System) : Move Tid Choice Event → Bool
  | .act t _ => !nextIs Op.isPushSend sys t
  | .event _ => true

theorem durable_of_unsending {m : Move Tid Choice Event} (h : unsending sys m = true) :
    durable sys m := by
  unfold durable
  split
  · intro tx msg hop
    simp [unsending, nextIs_of_about hop, Op.isPushSend] at h
  · trivial

/-- A target dispatch to a registered node that is not in the hub. -/
def targetQueued : List (Move Tid Choice Event) :=
  [.event (.connect 0)] ++ clientTurn 0 (registration "node") 7 ++
  targetRequest 0 "node" "run" ++ [.act (.request 0) .plain, .act (.request 0) .plain]

theorem accepted_runs_kept_sample :
    ∃ sys : System, sys.shared.answers 0 = some (.accepted [⟨"node", "run", "queued"⟩] ["node"]) ∧
      sys.shared.db.Covers ("node", "run") := by
  have hrun : ((control sampleSetup).run unsending (initial sampleSetup) targetQueued).any
      (fun sys => sys.shared.answers 0 =
        some (.accepted [⟨"node", "run", "queued"⟩] ["node"])) = true := by
    decide +kernel
  obtain ⟨sys, hreach, hcheck⟩ :=
    Machine.exists_reaches_of_run (fun _ _ => durable_of_unsending) hrun
  have hanswer := of_decide_eq_true hcheck
  refine ⟨sys, hanswer, ?_⟩
  exact accepted_runs_kept hreach 0 _ _ hanswer ⟨"node", "run", "queued"⟩ List.mem_cons_self

/-- A dispatch to one node that is ready and has the spec. -/
def dispatchedLive : List (Move Tid Choice Event) :=
  [.event (.connect 0)] ++ clientTurn 0 (registration "node") 7 ++
  clientTurn 0 (.nodeReady "node" 1) 6 ++
  [.event (.putConfig "node" sampleSpecs "[]"),
    .event (.request 0 (.dispatchCommand "node" ⟨"spec", none, none⟩)),
    .act (.request 0) .plain, .act (.request 0) .plain, .act (.request 0) (.name "run"),
    .act (.request 0) (.name "request"), .act (.request 0) .plain, .act (.request 0) .plain,
    .act (.request 0) .plain]

theorem live_dispatch_has_no_row :
    ∃ sys, (control sampleSetup).Reaches (fun _ _ => True) (initial sampleSetup) sys ∧
      ¬ AcceptedKept sys := by
  have hrun : ((control sampleSetup).run anyMove (initial sampleSetup) dispatchedLive).any
      (fun sys => sys.shared.answers 0 = some (.accepted [⟨"node", "run", "live"⟩] []) ∧
        sys.shared.db.pending = [] ∧ sys.shared.db.results = []) = true := by
    decide +kernel
  obtain ⟨sys, hreach, hcheck⟩ := Machine.exists_reaches_of_run (fun _ _ _ => trivial) hrun
  obtain ⟨hanswer, hpending, hresults⟩ := of_decide_eq_true hcheck
  refine ⟨sys, hreach, fun hkept => ?_⟩
  rcases hkept 0 _ _ hanswer _ List.mem_cons_self with ⟨row, hrow, -⟩ | ⟨row, hrow, -⟩
  · rw [hpending] at hrow
    cases hrow
  · rw [hresults] at hrow
    cases hrow

end Novbot.Control
