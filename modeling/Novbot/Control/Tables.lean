import Novbot.Control.Steps

/-!
# What happens to the tables

A row of `pending_dispatches` is identified by its id and keeps its node and run.
Only an acknowledgement removes rows, those of its node and run, and a result
that is stored stays (`exec_kept`).  Events of the environment leave both tables
alone.
-/

namespace Novbot.Control

open Concurrent

variable {setup : Setup} {w w' : World} {locs : Tid → Loc} {t : Tid} {c : Choice} {op : Op}
  {db db' : Db}

def PendingRow.run (row : PendingRow) : NodeId × RunId := (row.nodeId, row.runId)

def ResultRow.run (row : ResultRow) : NodeId × RunId := (row.nodeId, row.runId)

/-- A pending row for the run exists. -/
def Db.HasRow (db : Db) (run : NodeId × RunId) : Prop := ∃ row ∈ db.pending, row.run = run

/-- A result of the run is stored. -/
def Db.HasResult (db : Db) (run : NodeId × RunId) : Prop := ∃ row ∈ db.results, row.run = run

/-- Pending rows go on under their ids, and results stay. -/
structure Db.Kept (db db' : Db) (acked : NodeId × RunId → Prop) : Prop where
  pending : ∀ row ∈ db.pending, acked row.run ∨ ∃ row' ∈ db'.pending,
    row'.id = row.id ∧ row'.run = row.run
  results : ∀ row ∈ db.results, row ∈ db'.results

theorem Db.Kept.hasRow {acked : NodeId × RunId → Prop} (h : db.Kept db' acked)
    {run : NodeId × RunId} (hrow : db.HasRow run) : acked run ∨ db'.HasRow run := by
  obtain ⟨row, hrow, rfl⟩ := hrow
  rcases h.pending row hrow with hacked | ⟨row', hrow', -, hrun⟩
  · exact .inl hacked
  · exact .inr ⟨row', hrow', hrun⟩

theorem Db.Kept.hasResult {acked : NodeId × RunId → Prop} (h : db.Kept db' acked)
    {run : NodeId × RunId} (hresult : db.HasResult run) : db'.HasResult run := by
  obtain ⟨row, hrow, hrun⟩ := hresult
  exact ⟨row, h.results row hrow, hrun⟩

/-- The runs an operation acknowledges. -/
def Op.acks : Op → NodeId × RunId → Prop
  | .db (.ackPendingDispatch nodeId runId), run => run = (nodeId, runId)
  | _, _ => False

variable {acked : NodeId × RunId → Prop}

theorem Db.Kept.of_eq (hpending : db'.pending = db.pending) (hresults : db'.results = db.results) :
    db.Kept db' acked :=
  ⟨fun row hrow => .inr ⟨row, hpending ▸ hrow, rfl, rfl⟩, fun _ hrow => hresults ▸ hrow⟩

/-- An update of rows that changes neither ids nor runs. -/
theorem Db.Kept.of_map {f : PendingRow → PendingRow}
    (hf : ∀ row, (f row).id = row.id ∧ (f row).run = row.run)
    (hpending : db'.pending = db.pending.map f) (hresults : db'.results = db.results) :
    db.Kept db' acked := by
  refine ⟨fun row hrow => .inr ⟨f row, ?_, hf row⟩, fun _ hrow => hresults ▸ hrow⟩
  rw [hpending]
  exact List.mem_map_of_mem hrow

theorem Db.Kept.of_append {rows : List PendingRow} (hpending : db'.pending = db.pending ++ rows)
    (hresults : db'.results = db.results) : db.Kept db' acked := by
  refine ⟨fun row hrow => .inr ⟨row, ?_, rfl, rfl⟩, fun _ hrow => hresults ▸ hrow⟩
  rw [hpending]
  exact List.mem_append_left _ hrow

/-- The rows of a `dispatch_target` transaction: one for each planned run, none in
flight. -/
theorem Db.insertPlanned_pending (db : Db) (specId paramsJson : String)
    (planned : List (NodeId × RunId)) :
    ∃ rows, (db.insertPlanned specId paramsJson planned).pending = db.pending ++ rows ∧
      rows.map (·.run) = planned ∧ (∀ row ∈ rows, row.inFlightAt = none) ∧
      (db.insertPlanned specId paramsJson planned).results = db.results := by
  unfold insertPlanned
  induction planned generalizing db with
  | nil => exact ⟨[], (List.append_nil _).symm, rfl, fun _ h => (by cases h), rfl⟩
  | cons run planned ih =>
    obtain ⟨nodeId, runId⟩ := run
    obtain ⟨rows, hpending, hrun, hnone, hresults⟩ :=
      ih (db.insertPending nodeId runId specId paramsJson)
    refine ⟨⟨db.nextId, nodeId, runId, specId, paramsJson, none, 0⟩ :: rows, ?_, ?_, ?_, hresults⟩
    · rw [List.foldl_cons, hpending]
      exact List.append_assoc _ _ _
    · rw [List.map_cons, hrun]
      rfl
    · intro row hrow
      rcases List.mem_cons.mp hrow with rfl | hrow
      · rfl
      · exact hnone row hrow

/-- What a statement that may fail leaves. -/
theorem attempt_kept {change : Option Db} (h : ∀ db', change = some db' → db.Kept db' acked) :
    db.Kept (attempt c db change).2 acked := by
  unfold attempt
  split
  · exact h _ rfl
  · exact .of_eq rfl rfl

theorem execDb_kept (op : DbOp) (clock : Nat) :
    db.Kept (execDb setup c clock op db).2 (Op.acks (.db op)) := by
  cases op with
  | registerNode req =>
    simp only [execDb]
    split <;> exact .of_eq rfl rfl
  | applyReport report =>
    have hkept : db.Kept (attempt c db (db.applyReport report)).2
        (Op.acks (.db (.applyReport report))) := by
      refine attempt_kept fun db' h => ?_
      unfold Db.applyReport at h
      split at h
      · cases h; exact .of_eq rfl rfl
      · split at h
        · cases h
        · split at h
          · cases h
          · cases h; exact .of_eq rfl rfl
    simp only [execDb]
    split
    · next db' h =>
      rw [h] at hkept
      exact hkept
    · next db' h =>
      rw [h] at hkept
      exact hkept
  | insertResult row =>
    refine attempt_kept fun db' h => ?_
    unfold Db.insertResult at h
    split at h
    · cases h
      exact ⟨fun row hrow => .inr ⟨row, hrow, rfl, rfl⟩, fun _ h => List.mem_append_left _ h⟩
    · cases h
  | ackPendingDispatch nodeId runId =>
    refine attempt_kept fun db' h => ?_
    cases h
    refine ⟨fun row hrow => ?_, fun _ h => h⟩
    by_cases hrun : row.nodeId = nodeId ∧ row.runId = runId
    · exact .inl (Prod.ext hrun.1 hrun.2)
    · exact .inr ⟨row, List.mem_filter.mpr ⟨hrow, decide_eq_true hrun⟩, rfl, rfl⟩
  | claimPendingDispatches nodeId cutoff =>
    simp only [execDb]
    split
    · exact .of_eq rfl rfl
    · exact .of_map (fun row => by split <;> exact ⟨rfl, rfl⟩) rfl rfl
  | requeuePendingDispatches ids =>
    refine attempt_kept fun db' h => ?_
    cases h
    exact .of_map (fun row => by split <;> exact ⟨rfl, rfl⟩) rfl rfl
  | requeueInFlightForNode nodeId =>
    refine attempt_kept fun db' h => ?_
    cases h
    exact .of_map (fun row => by split <;> exact ⟨rfl, rfl⟩) rfl rfl
  | enqueueDispatch nodeId runId specId paramsJson =>
    refine attempt_kept fun db' h => ?_
    unfold Db.enqueueDispatch at h
    split at h
    · cases h
      exact .of_append rfl rfl
    · cases h
  | commitDispatch specId paramsJson planned =>
    refine attempt_kept fun db' h => ?_
    unfold Db.commitDispatch at h
    split at h
    · cases h
      obtain ⟨rows, hpending, -, -, hresults⟩ := db.insertPlanned_pending specId paramsJson planned
      exact .of_append hpending hresults
    · cases h
  | markInFlight nodeId runId =>
    refine attempt_kept fun db' h => ?_
    cases h
    exact .of_map (fun row => by split <;> exact ⟨rfl, rfl⟩) rfl rfl
  | _ => exact .of_eq rfl rfl

theorem exec_kept {reply : op.Reply} (h : exec setup t locs op c w = some (reply, w')) :
    w.db.Kept w'.db op.acks := by
  cases op with
  | db op =>
    simp only [exec, Option.some.injEq, Prod.mk.injEq] at h
    obtain ⟨-, rfl⟩ := h
    exact execDb_kept op w.clock
  | _ =>
    have hdb := (exec_frame h).2.1 rfl
    exact .of_eq (by rw [hdb]) (by rw [hdb])

theorem Fired.tables {sys : System} {e : Event} (h : Fired setup sys e w' locs) :
    w'.db.pending = sys.shared.db.pending ∧ w'.db.results = sys.shared.db.results := by
  cases h <;> exact ⟨rfl, rfl⟩

/-! ## What a reply says of the tables -/

theorem attempt_true {change : Option Db} (h : (attempt c db change).1 = true) :
    change = some (attempt c db change).2 := by
  cases hfail : c.fail with
  | true => simp [attempt, hfail] at h
  | false =>
    cases change with
    | none => simp [attempt, hfail] at h
    | some db' => simp [attempt, hfail]

/-- A stored result is in the table. -/
theorem exec_insertResult {row : ResultRow}
    (h : exec setup t locs (.db (.insertResult row)) c w = some (true, w')) :
    row ∈ w'.db.results := by
  simp only [exec, execDb, Option.some.injEq, Prod.mk.injEq] at h
  obtain ⟨hreply, rfl⟩ := h
  have hchange := attempt_true hreply
  generalize (attempt c w.db (w.db.insertResult row)).2 = db' at hchange ⊢
  unfold Db.insertResult at hchange
  split at hchange
  · rw [← Option.some.inj hchange]
    exact List.mem_append_right _ List.mem_cons_self
  · cases hchange

theorem exec_enqueueDispatch {nodeId : NodeId} {runId : RunId} {specId paramsJson : String}
    (h : exec setup t locs (.db (.enqueueDispatch nodeId runId specId paramsJson)) c w =
      some (true, w')) : w'.db.HasRow (nodeId, runId) := by
  simp only [exec, execDb, Option.some.injEq, Prod.mk.injEq] at h
  obtain ⟨hreply, rfl⟩ := h
  have hchange := attempt_true hreply
  generalize (attempt c w.db (w.db.enqueueDispatch nodeId runId specId paramsJson)).2 = db'
    at hchange ⊢
  unfold Db.enqueueDispatch at hchange
  split at hchange
  · rw [← Option.some.inj hchange]
    exact ⟨_, List.mem_append_right _ List.mem_cons_self, rfl⟩
  · cases hchange

theorem exec_commitDispatch {specId paramsJson : String} {planned : List (NodeId × RunId)}
    {run : NodeId × RunId}
    (h : exec setup t locs (.db (.commitDispatch specId paramsJson planned)) c w =
      some (true, w')) (hrun : run ∈ planned) : w'.db.HasRow run := by
  simp only [exec, execDb, Option.some.injEq, Prod.mk.injEq] at h
  obtain ⟨hreply, rfl⟩ := h
  have hchange := attempt_true hreply
  generalize (attempt c w.db (w.db.commitDispatch specId paramsJson planned)).2 = db'
    at hchange ⊢
  unfold Db.commitDispatch at hchange
  split at hchange
  · obtain ⟨rows, hpending, hruns, -, -⟩ := w.db.insertPlanned_pending specId paramsJson planned
    rw [← hruns] at hrun
    obtain ⟨row, hrow, rfl⟩ := List.mem_map.mp hrun
    rw [← Option.some.inj hchange]
    refine ⟨row, ?_, rfl⟩
    show row ∈ (w.db.insertPlanned specId paramsJson planned).pending
    rw [hpending]
    exact List.mem_append_right _ hrow
  · cases hchange

/-- What a session counts as stored it counted before, or stores now. -/
theorem exec_stored {reply : op.Reply} {run : NodeId × RunId} (loc : Loc)
    (h : exec setup t locs op c w = some (reply, w'))
    (hrun : run ∈ (note op reply loc).session.stored) :
    run ∈ loc.session.stored ∨
      ∃ row, op = .db (.insertResult row) ∧ run = row.run ∧ row ∈ w'.db.results := by
  cases op with
  | db op =>
    cases op with
    | insertResult row =>
      cases reply with
      | false => exact .inl hrun
      | true =>
        rcases List.mem_cons.mp hrun with rfl | hrun
        · exact .inr ⟨row, rfl, rfl, exec_insertResult h⟩
        · exact .inl hrun
    | registerNode req => cases reply <;> exact .inl hrun
    | claimPendingDispatches nodeId cutoff => cases reply <;> exact .inl hrun
    | enqueueDispatch nodeId runId specId paramsJson => cases reply <;> exact .inl hrun
    | commitDispatch specId paramsJson planned => cases reply <;> exact .inl hrun
    | markInFlight nodeId runId => cases reply <;> exact .inl hrun
    | _ => exact .inl hrun
  | hub op =>
    cases op with
    | sender nodeId => cases reply <;> exact .inl hrun
    | _ => exact .inl hrun
  | session op =>
    cases op with
    | streamSend msg =>
      cases reply with
      | false => exact .inl hrun
      | true =>
        replace hrun : run ∈ (noteSent msg loc.session).stored := hrun
        unfold noteSent at hrun
        split at hrun
        · exact .inl hrun
        · split at hrun <;> exact .inl hrun
    | _ => exact .inl hrun
  | host op =>
    replace hrun : run ∈ (noteHost op reply loc).session.stored := hrun
    rw [noteHost_session] at hrun
    exact .inl hrun
  | request op => exact .inl hrun
  | newUuid => exact .inl hrun
  | now => exact .inl hrun

/-! ## Requests -/

/-- What a reply adds to a request's history. -/
inductive RequestStep (loc : RequestLoc) : (op : Op) → op.Reply → RequestLoc → Prop where
  | queued (nodeId : NodeId) (runId : RunId) (specId paramsJson : String) :
    RequestStep loc (.db (.enqueueDispatch nodeId runId specId paramsJson)) true
      { loc with queued := (nodeId, runId) :: loc.queued }
  | committed (specId paramsJson : String) (planned : List (NodeId × RunId)) :
    RequestStep loc (.db (.commitDispatch specId paramsJson planned)) true
      { loc with unsent := planned, committed := planned ++ loc.committed }
  | marked (nodeId : NodeId) (runId : RunId) :
    RequestStep loc (.db (.markInFlight nodeId runId)) true
      { loc with unmarked := loc.unmarked.filter (· ≠ (nodeId, runId)) }
  | cloned (nodeId : NodeId) (tx : SessionId) :
    RequestStep loc (.hub (.sender nodeId)) (some tx) { loc with sender := some (nodeId, tx) }
  | absent (nodeId : NodeId) :
    RequestStep loc (.hub (.sender nodeId)) none (loc.sent none false)
  | pushed (tx : SessionId) (msg : ServerMessage) (live : Bool) :
    RequestStep loc (.hub (.pushSend tx msg)) live (loc.sent msg.run? live)
  | drawn (text : String) :
    RequestStep loc .newUuid text { loc with drawn := text :: loc.drawn }
  | other (op : Op) (reply : op.Reply) : RequestStep loc op reply loc

theorem note_request (op : Op) (reply : op.Reply) (loc : Loc) :
    RequestStep loc.request op reply (note op reply loc).request := by
  cases op with
  | db op =>
    cases op with
    | enqueueDispatch nodeId runId specId paramsJson =>
      cases reply with
      | false => exact .other _ _
      | true => exact .queued _ _ _ _
    | commitDispatch specId paramsJson planned =>
      cases reply with
      | false => exact .other _ _
      | true => exact .committed _ _ _
    | markInFlight nodeId runId =>
      cases reply with
      | false => exact .other _ _
      | true => exact .marked _ _
    | registerNode req => cases reply <;> exact .other _ _
    | insertResult row => cases reply <;> exact .other _ _
    | claimPendingDispatches nodeId cutoff => cases reply <;> exact .other _ _
    | _ => exact .other _ _
  | hub op =>
    cases op with
    | sender nodeId =>
      cases reply with
      | none => exact .absent _
      | some tx => exact .cloned _ _
    | pushSend tx msg => exact .pushed _ _ _
    | _ => exact .other _ _
  | session op =>
    cases op with
    | streamSend msg => cases reply <;> exact .other _ _
    | _ => exact .other _ _
  | host op =>
    have hsame : (note (.host op) reply loc).request = loc.request := by
      show (noteHost op reply loc).request = _
      unfold noteHost
      split <;> rfl
    rw [hsame]
    exact .other _ _
  | request op => exact .other _ _
  | newUuid => exact .drawn _
  | now => exact .other _ _

/-- An event leaves the history of a request alone, but for its start. -/
theorem Fired.request_eq {sys : System} {e : Event} (h : Fired setup sys e w' locs)
    (r : RequestId) : requestOf locs r = requestOf sys.loc r ∨
      requestOf locs r = { requestOf sys.loc r with started := true } := by
  cases h with
  | connect s | hostConnect nodeId s | frame s msg | push s msg | timer s due =>
    rw [requestOf_update, if_neg (by simp)]
    exact .inl rfl
  | request r' command | cancel r' =>
    rw [requestOf_update]
    split
    · next hr =>
      cases hr
      exact .inr rfl
    · exact .inl rfl
  | _ => exact .inl rfl

/-- A session counts nothing more as stored when it takes an event. -/
theorem Fired.stored {sys : System} {e : Event} (h : Fired setup sys e w' locs) {s : SessionId}
    {run : NodeId × RunId} (hrun : run ∈ (sessionOf locs s).stored) :
    run ∈ (sessionOf sys.loc s).stored := by
  cases h with
  | connect s' | hostConnect nodeId s' | frame s' msg | push s' msg | timer s' due =>
    rw [sessionOf_update] at hrun
    split at hrun
    · next hs =>
      cases hs
      first | exact hrun | cases hrun
    · exact hrun
  | request r command | cancel r =>
    rw [sessionOf_update, if_neg (by simp)] at hrun
    exact hrun
  | _ => exact hrun

theorem Fired.answers {sys : System} {e : Event} (h : Fired setup sys e w' locs) :
    w'.answers = sys.shared.answers := by
  cases h <;> rfl

end Novbot.Control
