import Novbot.Control.SessionMeets

/-!
# Requests and nodes meet their contracts

The programs of the HTTP requests and of the node's tasks, and `control_obeys`:
replies are as the contract says and every event starts a program that meets it.

A request *covers* a run when it committed or queued a row for it or sent it
live.  What a request answers as accepted, it covers.
-/

namespace Novbot.Control

open Concurrent Prog

variable {setup : Setup} {loc : Loc} {r : RequestId}

/-! ## Sends through the hub -/

def RequestLoc.covers (loc : RequestLoc) (run : NodeId × RunId) : Prop :=
  run ∈ loc.committed ∨ run ∈ loc.queued ∨ run ∈ loc.live

/-- A request between two sends of its own: it holds no sender, nothing that it
committed is unsent, and it covers what it covered before. -/
structure RequestLoc.Between (loc loc' : RequestLoc) : Prop where
  started : loc'.started = loc.started
  sender : loc'.sender = none
  unsent : loc'.unsent = []
  covers : ∀ run, loc.covers run → loc'.covers run

theorem RequestLoc.Between.trans {a b c : RequestLoc} (h : a.Between b) (h' : b.Between c) :
    a.Between c :=
  ⟨h'.started.trans h.started, h'.sender, h'.unsent, fun run hr => h'.covers run (h.covers run hr)⟩

theorem RequestLoc.Between.refl {a : RequestLoc} (hsender : a.sender = none)
    (hunsent : a.unsent = []) : a.Between a :=
  ⟨rfl, hsender, hunsent, fun _ h => h⟩

/-- Drawing an identifier changes neither. -/
theorem RequestLoc.Between.drew {a b : RequestLoc} (h : a.Between b) (text : String) :
    a.Between { b with drawn := text :: b.drawn } :=
  ⟨h.started, h.sender, h.unsent, h.covers⟩

theorem hubSend_meets {nodeId : NodeId} {msg : ServerMessage} (hsender : loc.request.sender = none)
    (hfor : msg.forNode = some nodeId) (hnext : sendsNext loc.request nodeId msg) :
    Prog.Meets setup (.request r) (hubSend nodeId msg)
      (fun live loc' => ∃ run, (live = true → run = msg.run?) ∧
        loc'.request = loc.request.sent run live) loc := by
  refine .call rfl hsender fun tx _ => ?_
  cases tx with
  | none => exact ⟨none, fun h => (by cases h), rfl⟩
  | some tx => exact Prog.Meets.last rfl ⟨nodeId, rfl, hfor, hnext⟩ fun live _ => ⟨_, fun _ => rfl, rfl⟩

theorem RequestLoc.Between.sent {l : RequestLoc} (hunsent : l.unsent = [])
    (run : Option (NodeId × RunId)) (live : Bool) : l.Between (l.sent run live) := by
  refine ⟨rfl, rfl, by simp [RequestLoc.sent, hunsent], fun run h => ?_⟩
  rcases h with h | h | h
  · exact .inl h
  · exact .inr (.inl h)
  · refine .inr (.inr ?_)
    cases live with
    | false => exact h
    | true => exact List.mem_append_right _ h

/-- With nothing committed, every message is a send of its own. -/
theorem sendsNext_nil {l : RequestLoc} (h : l.unsent = []) (nodeId : NodeId)
    (msg : ServerMessage) : sendsNext l nodeId msg :=
  fun _ _ hu => absurd (h.symm.trans hu) (by simp)

/-! ## One node -/

theorem dispatchToNode_meets {nodeId : NodeId} {specId : String} {params : Option Json}
    {runId : Option RunId} (hsender : loc.request.sender = none)
    (hunsent : loc.request.unsent = []) :
    Prog.Meets setup (.request r) (dispatchToNode setup nodeId specId params runId)
      (fun out loc' => loc.request.Between loc'.request ∧
        ∀ run, out = .ok run → loc'.request.covers (run.nodeId, run.runId)) loc := by
  have hsend : ∀ (runId : RunId) (l : Loc), loc.request.Between l.request →
      Prog.Meets setup (.request r)
        (do
          let paramsJson := setup.json.print (params.getD (.obj []))
          let requestId ← newUuid
          let live ← hubSend nodeId
            ⟨requestId, some (.dispatch ⟨nodeId, runId, specId, paramsJson⟩)⟩
          if live then return .ok ⟨nodeId, runId, "live"⟩
          if ← enqueueDispatch nodeId runId specId paramsJson then
            return .ok ⟨nodeId, runId, "queued"⟩
          return .error "internal error")
        (fun (out : Except String DispatchRun) loc' => loc.request.Between loc'.request ∧
          ∀ run : DispatchRun, out = Except.ok run →
            loc'.request.covers (run.nodeId, run.runId)) l := by
    intro runId l hl
    refine .call rfl trivial fun requestId _ => ?_
    refine Program.Meets.bind (hubSend_meets ?_ rfl (sendsNext_nil ?_ _ _)) fun live l₁ h => ?_
    · exact hl.sender
    · exact hl.unsent
    obtain ⟨sent, hrun, hl₁⟩ := h
    have hbetween : loc.request.Between l₁.request := by
      rw [hl₁]
      refine (hl.drew requestId).trans (.sent ?_ sent live)
      exact hl.unsent
    cases live with
    | true =>
      refine ⟨hbetween, fun run h => ?_⟩
      cases h
      rw [hl₁, hrun rfl]
      exact .inr (.inr List.mem_cons_self)
    | false =>
      refine Prog.Meets.call rfl trivial fun queued _ => ?_
      cases queued with
      | false => exact ⟨hbetween, fun _ h => (by cases h)⟩
      | true =>
        refine ⟨⟨hbetween.started, hbetween.sender, hbetween.unsent, fun run h => ?_⟩, fun run h => ?_⟩
        · rcases hbetween.covers run h with h | h | h
          · exact .inl h
          · exact .inr (.inl (.tail _ h))
          · exact .inr (.inr h)
        · cases h
          exact .inr (.inl List.mem_cons_self)
  cases runId with
  | none =>
    refine Prog.Meets.call rfl trivial fun runId _ => hsend runId _ ?_
    exact (RequestLoc.Between.refl hsender hunsent).drew runId
  | some given => exact hsend given _ (.refl hsender hunsent)

/-- What a request may answer with. -/
theorem restAt.ofRequest (h : loc.request.started = true) : restAt setup (.request r) loc :=
  ⟨fun hk => (by cases hk), fun _ hs => absurd (h.symm.trans hs) (by simp)⟩

/-- The answer ends a request. -/
theorem respond_meets {answer : Answer} (hstarted : loc.request.started = true)
    (hpre : preRequest (.respond answer) loc.request) :
    Prog.Meets setup (.request r) (respond answer)
      (fun _ loc' => restAt setup (.request r) loc') loc :=
  .last rfl hpre fun _ _ => .ofRequest hstarted

/-- A request that has done nothing but start. -/
structure RequestLoc.Begun (loc : RequestLoc) : Prop where
  started : loc.started = true
  sender : loc.sender = none
  unsent : loc.unsent = []
  unmarked : loc.unmarked = []
  committed : loc.committed = []
  drawn : loc.drawn = []

theorem dispatchCommand_meets {nodeId : NodeId} {body : DispatchBody}
    (h : loc.request.Begun) :
    Prog.Meets setup (.request r) (dispatchCommand setup nodeId body)
      (fun _ loc' => restAt setup (.request r) loc') loc := by
  refine .call rfl trivial fun config _ => ?_
  rcases config with message | _ | cfg
  · exact respond_meets h.started trivial
  · exact respond_meets h.started trivial
  show Prog.Meets setup _ (if _ then _ else _) _ _
  split
  · exact respond_meets h.started trivial
  refine .call rfl trivial fun confirm _ => ?_
  cases confirm with
  | error message => exact respond_meets h.started trivial
  | ok _ =>
    refine Program.Meets.bind (dispatchToNode_meets ?_ ?_) fun out l hl => ?_
    · exact h.sender
    · exact h.unsent
    have hstarted : l.request.started = true := hl.1.started.trans h.started
    cases out with
    | error message => exact respond_meets hstarted trivial
    | ok run =>
      refine respond_meets hstarted fun run' hrun => ?_
      obtain rfl := List.mem_singleton.mp hrun
      exact hl.2 _ rfl

/-! ## A skill group -/

/-- A request sent some runs on its own and covers each of them. -/
def sentRuns (loc : RequestLoc) (runs : List DispatchRun) (loc' : RequestLoc) : Prop :=
  loc.Between loc' ∧ ∀ run ∈ runs, loc'.covers (run.nodeId, run.runId)

theorem dispatchSkills_meets {nodeId : NodeId} {specs : List Json} {skills : List String}
    (hsender : loc.request.sender = none) (hunsent : loc.request.unsent = []) :
    Prog.Meets setup (.request r) (dispatchSkills setup nodeId specs skills)
      (fun runs loc' => sentRuns loc.request runs loc'.request) loc := by
  induction skills generalizing loc with
  | nil => exact ⟨.refl hsender hunsent, fun _ h => (by cases h)⟩
  | cons skill skills ih =>
    refine Program.Meets.bind (dispatchToNode_meets hsender hunsent) fun sent l hl => ?_
    refine Program.Meets.bind (ih hl.1.sender hl.1.unsent) fun runs l' hl' => ?_
    have hbetween := hl.1.trans hl'.1
    cases sent with
    | error message => exact ⟨hbetween, hl'.2⟩
    | ok run =>
      refine ⟨hbetween, fun run' hrun => ?_⟩
      rcases List.mem_cons.mp hrun with rfl | hrun
      · exact hl'.1.covers _ (hl.2 _ rfl)
      · exact hl'.2 run' hrun

theorem dispatchNamedSkills_meets {skills : List String} {nodeIds : List NodeId}
    (hsender : loc.request.sender = none) (hunsent : loc.request.unsent = []) :
    Prog.Meets setup (.request r) (dispatchNamedSkills setup skills nodeIds)
      (fun out loc' => loc.request.Between loc'.request ∧
        ∀ runs, out = .ok runs → sentRuns loc.request runs loc'.request) loc := by
  induction nodeIds generalizing loc with
  | nil =>
    refine ⟨.refl hsender hunsent, fun runs h => ?_⟩
    cases h
    exact ⟨.refl hsender hunsent, fun _ h => (by cases h)⟩
  | cons nodeId nodeIds ih =>
    refine .call rfl trivial fun config _ => ?_
    rcases config with message | _ | cfg
    · exact ⟨.refl hsender hunsent, fun _ h => (by cases h)⟩
    · exact ih hsender hunsent
    · refine Program.Meets.bind (dispatchSkills_meets ?_ ?_) fun runs l hl => ?_
      · exact hsender
      · exact hunsent
      refine Program.Meets.bind (ih hl.1.sender hl.1.unsent) fun more l' hl' => ?_
      have hbetween := hl.1.trans hl'.1
      cases more with
      | error message => exact ⟨hbetween, fun _ h => (by cases h)⟩
      | ok more =>
        refine ⟨hbetween, fun all h => ?_⟩
        cases h
        refine ⟨hbetween, fun run hrun => ?_⟩
        rcases List.mem_append.mp hrun with hrun | hrun
        · exact hl'.1.covers _ (hl.2 run hrun)
        · exact (hl'.2 more rfl).2 run hrun

theorem pushSkillGroup_meets {skills : List String} (h : loc.request.Begun) :
    Prog.Meets setup (.request r) (pushSkillGroup setup skills)
      (fun _ loc' => restAt setup (.request r) loc') loc := by
  refine .call rfl trivial fun frozen _ => ?_
  cases frozen with
  | error message => exact respond_meets h.started trivial
  | ok nodeIds =>
    refine .call rfl trivial fun stored _ => ?_
    cases stored with
    | false => exact respond_meets h.started trivial
    | true =>
      refine Program.Meets.bind (dispatchNamedSkills_meets ?_ ?_) fun out l hl => ?_
      · exact h.sender
      · exact h.unsent
      have hstarted : l.request.started = true := hl.1.started.trans h.started
      cases out with
      | error message => exact respond_meets hstarted trivial
      | ok runs => exact respond_meets hstarted (hl.2 runs rfl).2

/-! ## A target -/

/-- The plan is what the request drew, in order. -/
theorem planRuns_meets {nodeIds : List NodeId} :
    Prog.Meets setup (.request r) (planRuns nodeIds)
      (fun planned loc' => loc'.request =
        { loc.request with drawn := (planned.map (·.2)).reverse ++ loc.request.drawn }) loc := by
  induction nodeIds generalizing loc with
  | nil => rfl
  | cons nodeId nodeIds ih =>
    refine .call rfl trivial fun runId _ => ?_
    refine Program.Meets.bind ih fun planned l hl => ?_
    show l.request = _
    rw [hl]
    simp [note]

/-- Runs that a target has committed and goes on to send. -/
structure RequestLoc.Sending (loc : RequestLoc) (planned : List (NodeId × RunId)) : Prop where
  started : loc.started = true
  sender : loc.sender = none
  unsent : loc.unsent = planned
  committed : ∀ run ∈ planned, run ∈ loc.committed

/-- The send of the next planned run. -/
theorem sendNext_meets {nodeId : NodeId} {runId : RunId} {planned : List (NodeId × RunId)}
    {requestId specId paramsJson : String} (h : loc.request.Sending ((nodeId, runId) :: planned)) :
    Prog.Meets setup (.request r)
      (hubSend nodeId ⟨requestId, some (.dispatch ⟨nodeId, runId, specId, paramsJson⟩)⟩)
      (fun live loc' => loc'.request.Sending planned ∧
        loc'.request.committed = loc.request.committed ∧
        (live = true → (nodeId, runId) ∈ loc'.request.unmarked)) loc := by
  refine (hubSend_meets h.sender rfl ?_).mono fun live l hl => ?_
  · rintro run rest hunsent
    obtain ⟨rfl, -⟩ := List.cons.inj (h.unsent.symm.trans hunsent)
    exact ⟨rfl, rfl⟩
  · obtain ⟨run, -, hl⟩ := hl
    rw [hl]
    refine ⟨⟨h.started, rfl, ?_, fun run hrun => h.committed run (.tail _ hrun)⟩, rfl, ?_⟩
    · simp [RequestLoc.sent, h.unsent]
    · rintro rfl
      simp [RequestLoc.sent, h.unsent]

theorem sendPlanned_meets {specId paramsJson : String} {planned : List (NodeId × RunId)}
    (h : loc.request.Sending planned) :
    Prog.Meets setup (.request r) (sendPlanned specId paramsJson planned)
      (fun runs loc' => loc'.request.started = true ∧
        loc'.request.committed = loc.request.committed ∧
        ∀ run ∈ runs, (run.nodeId, run.runId) ∈ loc.request.committed) loc := by
  induction planned generalizing loc with
  | nil => exact ⟨h.started, rfl, fun _ h => (by cases h)⟩
  | cons run planned ih =>
    obtain ⟨nodeId, runId⟩ := run
    refine .call rfl trivial fun requestId _ => ?_
    refine Program.Meets.bind (sendNext_meets ⟨h.1, h.2, h.3, h.4⟩) fun live l hl => ?_
    obtain ⟨hl, hcommitted, hlive⟩ := hl
    have hrest : ∀ l' : Loc, l'.request.Sending planned →
        l'.request.committed = loc.request.committed →
        Prog.Meets setup (.request r)
          (do
            let runs ← sendPlanned specId paramsJson planned
            return ⟨nodeId, runId, if live then "live" else "queued"⟩ :: runs)
          (fun runs loc' => loc'.request.started = true ∧
            loc'.request.committed = loc.request.committed ∧
            ∀ run ∈ runs, (run.nodeId, run.runId) ∈ loc.request.committed) l' := by
      intro l' hl' hcommitted'
      refine Program.Meets.bind (ih hl') fun runs l'' hl'' => ?_
      obtain ⟨hstarted, hsame, hruns⟩ := hl''
      refine ⟨hstarted, hsame.trans hcommitted', fun run hrun => ?_⟩
      rcases List.mem_cons.mp hrun with rfl | hrun
      · exact h.committed _ List.mem_cons_self
      · exact hcommitted' ▸ hruns run hrun
    cases live with
    | false => exact hrest l hl hcommitted
    | true =>
      refine Prog.Meets.call rfl (hlive rfl) fun marked _ => ?_
      cases marked with
      | false => exact hrest l hl hcommitted
      | true =>
        refine hrest _ ?_ ?_
        · exact ⟨hl.1, hl.2, hl.3, hl.4⟩
        · exact hcommitted

theorem specMissing_meets {specId : String} {nodeIds : List NodeId} :
    Prog.Meets setup (.request r) (specMissing setup specId nodeIds)
      (fun _ loc' => loc' = loc) loc := by
  induction nodeIds with
  | nil => rfl
  | cons nodeId nodeIds ih =>
    refine .call rfl trivial fun config _ => ?_
    refine Program.Meets.bind ih fun missing l hl => ?_
    exact hl

theorem dispatchTarget_meets {body : DispatchRequest} (h : loc.request.Begun) :
    Prog.Meets setup (.request r) (dispatchTarget setup body)
      (fun _ loc' => restAt setup (.request r) loc') loc := by
  show Prog.Meets setup _ (if _ then _ else _) _ _
  split
  · exact respond_meets h.started trivial
  refine .call rfl trivial fun frozen _ => ?_
  cases frozen with
  | error message => exact respond_meets h.started trivial
  | ok nodeIds =>
    refine Program.Meets.bind planRuns_meets fun planned l hl => ?_
    replace hl : l.request = { loc.request with drawn := (planned.map (·.2)).reverse } := by
      rw [hl]
      simp [note, h.drawn]
    refine Prog.Meets.call rfl ?_ fun stored _ => ?_
    · show l.request.unsent = [] ∧ _
      rw [hl]
      exact ⟨h.unsent, h.unmarked, h.committed, rfl⟩
    cases stored with
    | false =>
      refine respond_meets ?_ trivial
      show l.request.started = true
      rw [hl]
      exact h.started
    | true =>
      have hsending : RequestLoc.Sending { l.request with
          unsent := planned, committed := planned ++ l.request.committed } planned := by
        rw [hl]
        exact ⟨h.started, h.sender, rfl, fun run hrun => List.mem_append_left _ hrun⟩
      refine Program.Meets.bind (sendPlanned_meets ?_) fun runs l' hl' => ?_
      · exact hsending
      obtain ⟨hstarted, hcommitted, hruns⟩ := hl'
      refine Program.Meets.bind specMissing_meets fun warnings l'' hl'' => ?_
      subst hl''
      refine respond_meets hstarted fun run hrun => .inl ?_
      rw [hcommitted]
      exact hruns run hrun

/-! ## Desired sets -/

theorem pushEach_meets {nodeIds : List NodeId} (hstarted : loc.request.started = true)
    (hsender : loc.request.sender = none) (hunsent : loc.request.unsent = []) :
    Prog.Meets setup (.request r) (pushEach nodeIds)
      (fun _ loc' => restAt setup (.request r) loc') loc := by
  induction nodeIds generalizing loc with
  | nil => exact .ofRequest hstarted
  | cons nodeId nodeIds ih =>
    have hskip : Prog.Meets setup (.request r) (pushEach nodeIds)
      (fun _ loc' => restAt setup (.request r) loc') loc := ih hstarted hsender hunsent
    refine .call rfl trivial fun abi _ => ?_
    show Prog.Meets setup _ (if abi.getD "" ≠ "" then _ else _) _ _
    split
    · refine .call rfl trivial fun connected _ => ?_
      cases connected with
      | false => exact hskip
      | true =>
        refine Program.Meets.bind buildDesired_meets fun desired l hl => ?_
        obtain ⟨rfl, hfor⟩ := hl
        cases desired with
        | error err => exact hskip
        | ok desired =>
          refine Prog.Meets.call rfl trivial fun requestId _ => ?_
          refine Program.Meets.bind (hubSend_meets hsender ?_ (sendsNext_nil hunsent _ _))
            fun live l hl => ?_
          · exact congrArg some (hfor desired rfl)
          obtain ⟨run, -, hl⟩ := hl
          refine ih ?_ ?_ ?_ <;> rw [hl]
          · exact hstarted
          · rfl
          · simp [RequestLoc.sent, note, hunsent]
    · exact hskip

theorem command_meets {command : Command} (h : loc.request.Begun) :
    Prog.Meets setup (.request r) (command.prog setup)
      (fun _ loc' => restAt setup (.request r) loc') loc := by
  cases command with
  | dispatchCommand nodeId body => exact dispatchCommand_meets h
  | pushSkillGroup skills => exact pushSkillGroup_meets h
  | dispatchTarget body => exact dispatchTarget_meets h
  | pushPending nodeIds => exact pushEach_meets h.started h.sender h.unsent

/-! ## The node -/

variable {nodeId : NodeId} {task : HostTask}

theorem trySend_meets {msg : ClientMessage}
    (h : ∀ report, msg.body = some (.reportResult report) →
      reportable setup nodeId loc.host report) :
    Prog.Meets setup (.host nodeId task) (trySend msg) (fun _ loc' => loc' = loc) loc := by
  refine .call rfl trivial fun out _ => ?_
  cases out with
  | none => rfl
  | some tx => exact Prog.Meets.last rfl h fun _ _ => rfl

theorem sendReport_meets {report : ReportResultRequest} (h : reportable setup nodeId loc.host report) :
    Prog.Meets setup (.host nodeId task) (sendReport report)
      (fun _ loc' => loc'.host = loc.host) loc := by
  refine .call rfl trivial fun requestId _ => ?_
  refine Program.Meets.bind (trySend_meets fun report' hr => ?_) fun sent l hl => ?_
  · cases hr
    exact h
  subst hl
  cases sent with
  | true => exact rfl
  | false => exact Prog.Meets.call rfl h fun _ _ => rfl

theorem sendSpooled_meets {items : List PendingReport}
    (h : ∀ item ∈ items, reportable setup nodeId loc.host item.report) :
    Prog.Meets setup (.host nodeId task) (sendSpooled items)
      (fun _ loc' => loc'.host = loc.host) loc := by
  induction items generalizing loc with
  | nil => rfl
  | cons item items ih =>
    have hitem := h item List.mem_cons_self
    refine .call rfl trivial fun requestId _ => ?_
    refine Program.Meets.bind (trySend_meets fun report' hr => ?_) fun sent l hl => ?_
    · cases hr
      exact hitem
    subst hl
    cases sent with
    | true =>
      refine Program.Meets.mono (ih ?_) fun _ l hl => ?_
      · exact fun item' hi => h item' (.tail _ hi)
      · exact hl
    | false => exact Prog.Meets.call rfl hitem fun _ _ => rfl

theorem restAt.ofHost : restAt setup (.host nodeId task) loc :=
  ⟨fun hk => (by cases hk), fun hk => (by cases hk)⟩

theorem flushSpool_meets :
    Prog.Meets setup (.host nodeId task) flushSpool
      (fun _ loc' => restAt setup (.host nodeId task) loc') loc := by
  refine .call rfl trivial fun out _ => ?_
  cases out with
  | none => exact .ofHost
  | some tx =>
    refine Prog.Meets.call rfl trivial fun items _ => ?_
    cases items with
    | none => exact .ofHost
    | some items =>
      refine Prog.Meets.call rfl trivial fun _ _ => ?_
      refine Program.Meets.mono (sendSpooled_meets fun item hi => ?_) fun _ _ _ => .ofHost
      exact .inr (.inr ⟨item, hi, rfl⟩)

/-- The outcome is about this node and this run. -/
theorem dispatchOutcome_meets {runId : RunId} {d : Dispatch} :
    Prog.Meets setup (.host nodeId task) (dispatchOutcome setup nodeId runId d)
      (fun report _ => report.nodeId = nodeId) loc := by
  refine .call rfl trivial fun spec _ => ?_
  cases spec with
  | error reason => exact Prog.Meets.call rfl trivial fun _ _ => rfl
  | ok spec =>
    exact Prog.Meets.call rfl trivial fun _ _ => Prog.Meets.call rfl trivial fun _ _ => rfl

theorem runDispatch_meets {d : Dispatch} :
    Prog.Meets setup (.host nodeId task) (runDispatch setup nodeId d)
      (fun _ loc' => restAt setup (.host nodeId task) loc') loc := by
  have hfresh : ∀ (runId : RunId) (l : Loc), Prog.Meets setup (.host nodeId task)
      (do
        let report ← dispatchOutcome setup nodeId runId d
        writeEgress report
        let _ ← sendReport report)
      (fun _ loc' => restAt setup (.host nodeId task) loc') l := by
    intro runId l
    refine Program.Meets.bind dispatchOutcome_meets fun report l' hl => ?_
    refine Prog.Meets.call rfl hl fun _ _ => ?_
    refine Program.Meets.bind (sendReport_meets (.inl ?_)) fun _ _ _ => .ofHost
    exact List.mem_cons_self
  by_cases hempty : d.runId = ""
  · simp only [runDispatch, hempty, if_true]
    exact Prog.Meets.call rfl trivial fun runId _ => hfresh runId _
  · simp only [runDispatch, hempty, if_false]
    refine Prog.Meets.call rfl trivial fun fresh _ => ?_
    cases fresh with
    | true => exact hfresh d.runId _
    | false =>
      refine Prog.Meets.call rfl trivial fun observedAt _ => ?_
      refine Program.Meets.bind (sendReport_meets (.inr (.inl ⟨d, observedAt, rfl, ?_⟩))) fun _ _ _ => .ofHost
      exact List.mem_cons_self

theorem runDue_meets {specs : List Spec} :
    Prog.Meets setup (.host nodeId task) (runDue setup nodeId specs)
      (fun _ loc' => restAt setup (.host nodeId task) loc') loc := by
  induction specs generalizing loc with
  | nil => exact .ofHost
  | cons spec specs ih =>
    refine .call rfl trivial fun runId _ => Prog.Meets.call rfl trivial fun observedAt _ => ?_
    refine Prog.Meets.call rfl trivial fun outcome _ => Prog.Meets.call rfl rfl fun _ _ => ?_
    refine Program.Meets.bind (sendReport_meets (.inl ?_)) fun placed l _ => ?_
    · exact List.mem_cons_self
    cases placed with
    | true => exact ih
    | false => exact .ofHost

theorem onServer_meets {msg : ServerMessage} :
    Prog.Meets setup (.host nodeId task) (onServer setup nodeId msg)
      (fun _ loc' => restAt setup (.host nodeId task) loc') loc := by
  unfold onServer
  split
  · exact Prog.Meets.call rfl trivial fun _ _ => .ofHost
  · exact runDispatch_meets
  · exact .ofHost

end Novbot.Control
