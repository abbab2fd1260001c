import Novbot.Control.Tables

/-!
# What a session sends, and what marks a row

A session sends the rows that it claimed and the messages of its push channel.  `SendStep` lists what
an operation does to these and to the record of what was sent, `RowStep` what it does to the rows of
`pending_dispatches` and their marks.
-/

namespace Novbot.Control

open Concurrent

variable {setup : Setup} {w w' : World} {locs : Tid → Loc} {t : Tid} {c : Choice} {op : Op}
  {s : SessionId}

/-! ## The record of a session -/

def Dispatch.run (d : Dispatch) : NodeId × RunId := (d.forNode, d.runId)

def ClaimedDispatch.run (row : ClaimedDispatch) : NodeId × RunId := (row.nodeId, row.runId)

/-- The run was sent since the session registered its node last. -/
def sentSince (run : NodeId × RunId) : List Record → Bool
  | [] => false
  | .registered nodeId :: history => nodeId ≠ run.1 && sentSince run history
  | .sent d _ :: history => d.run = run || sentSince run history

/-- A run is sent again only from a row whose mark was stale when it was claimed. -/
def SentOnce (clock : Nat) : List Record → Prop
  | [] => True
  | .registered _ :: history => SentOnce clock history
  | .sent d claimed :: history => SentOnce clock history ∧
    (sentSince d.run history = true →
      ∃ mark, claimed = some (some mark) ∧ mark + pendingDispatchAckTimeout < clock)

theorem SentOnce.mono {clock clock' : Nat} {history : List Record} (h : SentOnce clock history)
    (hle : clock ≤ clock') : SentOnce clock' history := by
  induction history with
  | nil => trivial
  | cons record history ih =>
    cases record with
    | registered nodeId => exact ih h
    | sent d claimed =>
      refine ⟨ih h.1, fun hsince => ?_⟩
      obtain ⟨mark, hclaimed, hlt⟩ := h.2 hsince
      exact ⟨mark, hclaimed, hlt.trans_le hle⟩

/-- The dispatches that wait for the session to send them. -/
def waits (stream : Stream) (loc : SessionLoc) : List (NodeId × RunId) :=
  (loc.forward.bind ServerMessage.run?).toList ++ stream.push.filterMap ServerMessage.run?

/-- The session has sent the run since it registered, or is about to. -/
def Holds (stream : Stream) (loc : SessionLoc) (run : NodeId × RunId) : Prop :=
  sentSince run loc.history = true ∨ run ∈ loc.hand.map (·.run) ∨ run ∈ waits stream loc

/-! ## What an operation does to a session -/

/-- What a reply does to what a session has sent, and has in hand. -/
inductive SendStep (loc : SessionLoc) : (op : Op) → op.Reply → SessionLoc → Prop where
  | registered (req : RegisterRequest) (loc' : SessionLoc) (hphase : loc'.phase = loc.phase)
    (hhistory : loc'.history = .registered req.nodeId :: loc.history) (hhand : loc'.hand = loc.hand)
    (hforward : loc'.forward = loc.forward) : SendStep loc (.db (.registerNode req)) (.ok ()) loc'
  | claimed (nodeId : NodeId) (cutoff : Nat) (rows : List ClaimedDispatch) :
    SendStep loc (.db (.claimPendingDispatches nodeId cutoff)) (some rows) { loc with hand := rows }
  | requeued (ids : List Nat) (reply : Bool) :
    SendStep loc (.db (.requeuePendingDispatches ids)) reply { loc with hand := [] }
  | sent (msg : ServerMessage) : SendStep loc (.session (.streamSend msg)) true (noteSent msg loc)
  | other (op : Op) (reply : op.Reply) (loc' : SessionLoc)
    (hphase : loc'.phase = .open → loc.phase = .open) (hhistory : loc'.history = loc.history)
    (hhand : loc'.hand = loc.hand) (hforward : loc'.forward = loc.forward ∨ loc'.forward = none) :
    SendStep loc op reply loc'

theorem SendStep.same (loc : SessionLoc) (op : Op) (reply : op.Reply) : SendStep loc op reply loc :=
  .other op reply loc id rfl rfl (.inl rfl)

theorem note_send (op : Op) (reply : op.Reply) (loc : Loc) :
    SendStep loc.session op reply (note op reply loc).session := by
  cases op with
  | db op =>
    cases op with
    | registerNode req =>
      cases reply with
      | error message => exact .same _ _ _
      | ok result => exact .registered req _ rfl rfl rfl rfl
    | claimPendingDispatches nodeId cutoff =>
      cases reply with
      | none => exact .same _ _ _
      | some rows => exact .claimed nodeId cutoff rows
    | requeuePendingDispatches ids => exact .requeued ids reply
    | configGeneration nodeId => exact .other _ _ _ id rfl rfl (.inl rfl)
    | insertResult row =>
      cases reply with
      | false => exact .same _ _ _
      | true => exact .other _ _ _ id rfl rfl (.inl rfl)
    | enqueueDispatch nodeId runId specId paramsJson => cases reply <;> exact .same _ _ _
    | commitDispatch specId paramsJson planned => cases reply <;> exact .same _ _ _
    | markInFlight nodeId runId => cases reply <;> exact .same _ _ _
    | _ => exact .same _ _ _
  | hub op =>
    cases op with
    | register nodeId | unregister nodeId => exact .other _ _ _ id rfl rfl (.inl rfl)
    | sender nodeId => cases reply <;> exact .same _ _ _
    | _ => exact .same _ _ _
  | session op =>
    cases op with
    | streamSend msg =>
      cases reply with
      | false => exact .other _ _ _ id rfl rfl (.inr rfl)
      | true => exact .sent msg
    | bind nodeId gate => exact .other _ _ _ id rfl rfl (.inl rfl)
    | setGate gate => exact .other _ _ _ id rfl rfl (.inl rfl)
    | leave => exact .other _ _ _ (fun h => (by cases h)) rfl rfl (.inl rfl)
  | host op =>
    have hsame : (note (.host op) reply loc).session = loc.session := noteHost_session op reply loc
    rw [hsame]
    exact .same _ _ _
  | request op => exact .same _ _ _
  | newUuid => exact .same _ _ _
  | now => exact .other _ _ _ id rfl rfl (.inl rfl)

/-! ## What an operation does to the rows -/

/-- The row becomes available. -/
def Op.frees (op : Op) (row : PendingRow) : Prop :=
  match op with
  | .db (.requeueInFlightForNode nodeId) => row.nodeId = nodeId
  | .db (.requeuePendingDispatches ids) => row.id ∈ ids
  | _ => False

/-- The operation inserts rows of these runs. -/
def Op.inserts (op : Op) : List (NodeId × RunId) :=
  match op with
  | .db (.commitDispatch _ _ planned) => planned
  | .db (.enqueueDispatch nodeId runId _ _) => [(nodeId, runId)]
  | _ => []

def PendingRow.claimed (row : PendingRow) (now : Nat) : PendingRow :=
  { row with inFlightAt := some now, attemptCount := row.attemptCount + 1 }

/-- What an operation does to the rows of `pending_dispatches`. -/
inductive RowStep (rows : List PendingRow) (now : Nat) :
    (op : Op) → op.Reply → List PendingRow → Prop where
  | claimed (nodeId : NodeId) (cutoff : Nat) (print : String → String) :
    RowStep rows now (.db (.claimPendingDispatches nodeId cutoff))
      (some ((rows.filter fun row => row.nodeId = nodeId ∧ row.available cutoff).map fun row =>
        ⟨row.id, row.runId, row.specId, print row.paramsJson, row.nodeId, row.inFlightAt⟩))
      (rows.map fun row =>
        if row.nodeId = nodeId ∧ row.available cutoff then row.claimed now else row)
  | marked (nodeId : NodeId) (runId : RunId) :
    RowStep rows now (.db (.markInFlight nodeId runId)) true
      (rows.map fun row =>
        if row.nodeId = nodeId ∧ row.runId = runId then row.claimed now else row)
  | freed (op : Op) (reply : op.Reply) (rows' : List PendingRow)
    (hruns : rows'.map (·.run) = rows.map (·.run))
    (hmarks : ∀ row' ∈ rows', row' ∈ rows ∨ ∃ row ∈ rows, row.run = row'.run ∧ op.frees row) :
    RowStep rows now op reply rows'
  | inserted (op : Op) (reply : op.Reply) (added : List PendingRow)
    (hruns : added.map (·.run) = op.inserts) : RowStep rows now op reply (rows ++ added)
  | fewer (op : Op) (reply : op.Reply) (rows' : List PendingRow) (h : rows'.Sublist rows) :
    RowStep rows now op reply rows'

theorem RowStep.same (rows : List PendingRow) (now : Nat) (op : Op) (reply : op.Reply) :
    RowStep rows now op reply rows :=
  .fewer op reply rows (List.Sublist.refl _)

/-- An update that clears marks. -/
theorem RowStep.clear {rows : List PendingRow} {now : Nat} {op : Op} {reply : op.Reply}
    {test : PendingRow → Prop} [DecidablePred test] (h : ∀ row, test row → op.frees row) :
    RowStep rows now op reply
      (rows.map fun row => if test row then { row with inFlightAt := none } else row) := by
  refine .freed op reply _ ?_ fun row' hrow' => ?_
  · rw [List.map_map]
    refine List.map_congr_left fun row _ => ?_
    rw [Function.comp_apply]
    split <;> rfl
  · obtain ⟨row, hrow, rfl⟩ := List.mem_map.mp hrow'
    split
    · next htest => exact .inr ⟨row, hrow, rfl, h row htest⟩
    · exact .inl hrow

theorem attempt_rows {db : Db} {op : Op} {reply : op.Reply} {now : Nat} {change : Option Db}
    (h : ∀ db', change = some db' → RowStep db.pending now op reply db'.pending) :
    RowStep db.pending now op reply (attempt c db change).2.pending := by
  unfold attempt
  split
  · exact h _ rfl
  · exact .same _ _ _ _

theorem applyReport_pending {db db' : Db} {report : SkillStateReport}
    (h : db.applyReport report = some db') : db'.pending = db.pending := by
  unfold Db.applyReport at h
  split at h
  · cases h
    rfl
  · split at h
    · cases h
    · split at h <;> cases h
      rfl

theorem execDb_applyReport (db : Db) (now : Nat) (report : SkillStateReport) :
    (execDb setup c now (.applyReport report) db).2 = (attempt c db (db.applyReport report)).2 := by
  simp only [execDb]
  split
  · next db' h => rw [h]
  · next db' h => rw [h]

theorem execDb_rows (op : DbOp) {reply : op.Reply} {db db' : Db} {now : Nat}
    (h : execDb setup c now op db = (reply, db')) :
    RowStep db.pending now (.db op) reply db'.pending := by
  have hdb := congrArg Prod.snd h
  cases op with
  | registerNode req =>
    simp only [execDb] at h
    split at h <;> cases h <;> exact .same _ _ _ _
  | applyReport report =>
    have hrows : (attempt c db (db.applyReport report)).2.pending = db.pending := by
      unfold attempt
      split
      · next db' hchange => exact applyReport_pending hchange
      · rfl
    rw [execDb_applyReport] at hdb
    rw [← show _ = db' from hdb, hrows]
    exact .same _ _ _ _
  | insertResult row =>
    subst hdb
    refine attempt_rows fun db' hchange => ?_
    unfold Db.insertResult at hchange
    split at hchange <;> cases hchange
    exact .same _ _ _ _
  | ackPendingDispatch nodeId runId =>
    subst hdb
    refine attempt_rows fun db' hchange => ?_
    cases hchange
    exact .fewer _ _ _ List.filter_sublist
  | claimPendingDispatches nodeId cutoff =>
    simp only [execDb] at h
    split at h
    · cases h
      exact .same _ _ _ _
    · cases h
      exact .claimed nodeId cutoff fun text =>
        setup.json.print ((setup.json.parse text).getD (.obj []))
  | requeuePendingDispatches ids =>
    subst hdb
    refine attempt_rows fun db' hchange => ?_
    cases hchange
    exact .clear fun row hrow => hrow
  | requeueInFlightForNode nodeId =>
    subst hdb
    refine attempt_rows fun db' hchange => ?_
    cases hchange
    exact .clear fun row hrow => hrow
  | enqueueDispatch nodeId runId specId paramsJson =>
    subst hdb
    refine attempt_rows fun db' hchange => ?_
    unfold Db.enqueueDispatch at hchange
    split at hchange <;> cases hchange
    exact .inserted _ _ [⟨db.nextId, nodeId, runId, specId, paramsJson, none, 0⟩] rfl
  | commitDispatch specId paramsJson planned =>
    subst hdb
    refine attempt_rows fun db' hchange => ?_
    unfold Db.commitDispatch at hchange
    split at hchange <;> cases hchange
    obtain ⟨rows, hpending, hruns, -, -⟩ := db.insertPlanned_pending specId paramsJson planned
    rw [hpending]
    exact .inserted _ _ rows hruns
  | markInFlight nodeId runId =>
    simp only [execDb, attempt] at h
    split at h
    · next db' _ hchange =>
      cases hchange
      cases h
      exact .marked nodeId runId
    · cases h
      exact .same _ _ _ _
  | _ =>
    subst hdb
    exact .same _ _ _ _

theorem exec_rows {reply : op.Reply} (h : exec setup t locs op c w = some (reply, w')) :
    RowStep w.db.pending w.clock op reply w'.db.pending := by
  cases op with
  | db op =>
    obtain ⟨hreply, hw⟩ := Prod.mk.inj (Option.some.inj h)
    subst hw
    exact execDb_rows op (Prod.ext hreply rfl)
  | _ =>
    rw [(exec_frame h).2.1 rfl]
    exact .same _ _ _ _

/-! ## Streams -/

/-- No operation mends or breaks a stream. -/
theorem exec_downLink {reply : op.Reply} (h : exec setup t locs op c w = some (reply, w'))
    (s : SessionId) : (w'.streams s).downLink = (w.streams s).downLink := by
  have hstream : ∀ {s' stream}, stream.downLink = (w.streams s').downLink →
      ((w.setStream s' stream).streams s).downLink = (w.streams s).downLink := by
    intro s' stream hsame
    rw [setStream_streams]
    split
    · next hs => rw [hs, hsame]
    · rfl
  cases op with
  | db op =>
    obtain ⟨-, hw⟩ := Prod.mk.inj (Option.some.inj h)
    subst hw
    rfl
  | hub op =>
    cases op with
    | pushSend tx msg =>
      obtain ⟨-, hw⟩ := Prod.mk.inj (Option.some.inj h)
      subst hw
      refine hstream ?_
      split <;> rfl
    | register nodeId | unregister nodeId =>
      cases t <;> cases h
      rfl
    | evict nodeId =>
      cases t with
      | session s' =>
        obtain ⟨-, hw⟩ := Prod.mk.inj (Option.some.inj h)
        subst hw
        split <;> rfl
      | request r => cases h
      | host n task => cases h
    | issueTicket nodeId sha256 =>
      simp only [exec, execHub] at h
      split at h <;> cases h
      rfl
    | sender nodeId | isConnected nodeId | noteAbi nodeId abi | skillAbi nodeId =>
      cases h
      rfl
  | session op =>
    cases op with
    | streamSend msg =>
      cases t with
      | session s' =>
        obtain ⟨-, hw⟩ := Prod.mk.inj (Option.some.inj h)
        subst hw
        exact hstream rfl
      | request r => cases h
      | host n task => cases h
    | bind nodeId gate =>
      cases t <;> cases h
      rfl
    | setGate gate | leave =>
      cases h
      rfl
  | request op =>
    cases op with
    | respond answer =>
      cases t <;> cases h
      rfl
    | checkSubmit | ensureProdConfirm nodeId | storeResolution =>
      cases h
      rfl
  | host op =>
    cases t with
    | host nodeId task =>
      cases op with
      | clientSend tx msg =>
        obtain ⟨-, hw⟩ := Prod.mk.inj (Option.some.inj h)
        subst hw
        exact hstream rfl
      | seenInsert runId =>
        simp only [exec, execHost] at h
        split at h <;> cases h <;> rfl
      | findSpec specId =>
        simp only [exec, execHost] at h
        split at h
        · cases h
          rfl
        · split at h <;> cases h <;> rfl
      | applyConfig generation specsJson schedulesJson =>
        simp only [exec, execHost] at h
        split at h <;> cases h <;> rfl
      | spoolAppend item =>
        simp only [exec, execHost] at h
        split at h <;> cases h <;> rfl
      | spoolClear =>
        obtain ⟨-, hw⟩ := Prod.mk.inj (Option.some.inj h)
        subst hw
        split <;> rfl
      | sessionOut | executeSpec spec runId | writeEgress outcome | spoolRead =>
        cases h
        rfl
    | session s' => cases h
    | request r => cases h
  | newUuid =>
    simp only [exec] at h
    split at h <;> cases h
    rfl
  | now =>
    cases h
    rfl

end Novbot.Control
