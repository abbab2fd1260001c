import Mathlib.Data.List.Nodup
import Novbot.Control.Sends

/-!
# One send in each window

A dispatch of a target commits the rows of its runs, sends each run to the session of its node, and
marks the rows of those that were sent.  Meanwhile a session may claim a row that is not marked yet,
and whoever releases or registers a node clears the marks of all its rows, also of those that
another session sent.  Both let a session send a run again (`sentSince`).

Without such steps (`Careful`) a live session sends a run again only when the mark of its row was
older than the timeout, or after it has registered the node again (`sent_once`).
-/

namespace Novbot.Control

open Concurrent

variable {setup : Setup} {sys sys' : System} {w w' : World} {locs : Tid → Loc} {t : Tid}
  {op : Op} {c : Choice} {s : SessionId} {r : RequestId} {run : NodeId × RunId}

/-- The session runs, and its stream takes what it sends. -/
def Live (w : World) (locs : Tid → Loc) (s : SessionId) : Prop :=
  (sessionOf locs s).phase = .open ∧ (w.streams s).downLink = .up

/-- No live session has sent the run, or is about to. -/
def Unheld (w : World) (locs : Tid → Loc) (run : NodeId × RunId) : Prop :=
  ∀ s, Live w locs s → ¬ Holds (w.streams s) (sessionOf locs s) run

/-- The run has no row, no session holds it, and no request is to send it. -/
structure NewRun (sys : System) (run : NodeId × RunId) : Prop where
  row : ∀ row ∈ sys.shared.db.pending, row.run ≠ run
  held : Unheld sys.shared sys.loc run
  unsent : ∀ r, run ∉ (requestOf sys.loc r).unsent

/-- The request of the run has sent it and marked its row, or it is gone. -/
def Delivered (sys : System) (run : NodeId × RunId) : Prop :=
  ∀ r, (run ∈ (requestOf sys.loc r).unsent → sys.idle (.request r) = true) ∧
    run ∉ (requestOf sys.loc r).unmarked

/-- The next operation of the task does not get in the way of another task. -/
structure Careful (sys : System) (t : Tid) : Prop where
  /-- A session claims no row that a request is still to send or to mark, or that waits in its own
  push channel. -/
  claim : ∀ s nodeId cutoff, t = .session s →
    sys.about t (.db (.claimPendingDispatches nodeId cutoff)) →
    ∀ row ∈ sys.shared.db.pending, row.nodeId = nodeId → row.available cutoff = true →
      Delivered sys row.run ∧ row.run ∉ waits (sys.shared.streams s) (sessionOf sys.loc s)
  /-- No mark is cleared of a row that a live session has sent, or is about to send. -/
  free : ∀ op, sys.about t op → ∀ row ∈ sys.shared.db.pending, op.frees row →
    row.inFlightAt ≠ none → Unheld sys.shared sys.loc row.run
  /-- Rows are inserted for new runs. -/
  insert : ∀ op, sys.about t op → op.inserts.Nodup ∧ ∀ run ∈ op.inserts, NewRun sys run
  /-- A run that is sent without a row is new. -/
  push : ∀ r tx msg run, t = .request r → sys.about t (.hub (.pushSend tx msg)) →
    msg.run? = some run → (requestOf sys.loc r).unsent = [] → NewRun sys run

def careful (sys : System) : Move Tid Choice Event → Prop
  | .act t _ => Careful sys t
  | .event _ => True

/-! ## The invariant -/

/-- What holds of a live session. -/
structure SessionInv (clock : Nat) (stream : Stream) (loc : SessionLoc) : Prop where
  once : SentOnce clock loc.history
  hand : (loc.hand.map (·.run)).Nodup
  /-- A row without a mark was claimed for the first time. -/
  unmarked : ∀ row ∈ loc.hand, row.replaced = none → sentSince row.run loc.history = false
  stale : ∀ row ∈ loc.hand, ∀ mark, row.replaced = some mark →
    mark + pendingDispatchAckTimeout < clock
  apart : ∀ row ∈ loc.hand, row.run ∉ waits stream loc
  nodup : (waits stream loc).Nodup
  fresh : ∀ run ∈ waits stream loc, sentSince run loc.history = false

structure SendInv (sys : System) : Prop where
  clock : ∀ s, (sessionOf sys.loc s).clockRead ≤ sys.shared.clock
  session : ∀ s, Live sys.shared sys.loc s →
    SessionInv sys.shared.clock (sys.shared.streams s) (sessionOf sys.loc s)
  rows : (sys.shared.db.pending.map (·.run)).Nodup
  /-- What is available was not sent, unless its request is yet to mark it. -/
  marked : ∀ row ∈ sys.shared.db.pending, row.inFlightAt = none →
    (∃ r, row.run ∈ (requestOf sys.loc r).unmarked) ∨ Unheld sys.shared sys.loc row.run
  /-- What a request is to send nobody has. -/
  unsent : ∀ r, sys.idle (.request r) = false → (requestOf sys.loc r).unsent.Nodup ∧
    ∀ run ∈ (requestOf sys.loc r).unsent, Unheld sys.shared sys.loc run ∧
      ∀ r', r' ≠ r → sys.idle (.request r') = false → run ∉ (requestOf sys.loc r').unsent

/-! ## Sends of one session -/

section
variable {clock clock' : Nat} {stream stream' : Stream} {loc loc' : SessionLoc}
  {added : List ServerMessage}

theorem waits_append (hforward : loc'.forward = loc.forward)
    (hpush : stream'.push = stream.push ++ added) :
    waits stream' loc' = waits stream loc ++ added.filterMap ServerMessage.run? := by
  rw [waits, waits, hforward, hpush, List.filterMap_append, List.append_assoc]

theorem waits_sublist (hforward : loc'.forward = loc.forward ∨ loc'.forward = none)
    (hpush : stream'.push = stream.push) : (waits stream' loc').Sublist (waits stream loc) := by
  rcases hforward with hforward | hforward
  · rw [waits_append hforward (hpush.trans (List.append_nil _).symm), List.filterMap_nil,
      List.append_nil]
  · rw [waits, hforward, hpush]
    exact List.sublist_append_right _ _

theorem sentSince_registered {nodeId : NodeId} {history : List Record}
    (h : sentSince run history = false) : sentSince run (.registered nodeId :: history) = false := by
  rw [sentSince, h, Bool.and_false]

theorem sentSince_sent {d : Dispatch} {claimed : Option (Option Nat)} {history : List Record}
    (hne : d.run ≠ run) (h : sentSince run history = false) :
    sentSince run (.sent d claimed :: history) = false := by
  rw [sentSince, h, Bool.or_false, decide_eq_false_iff_not]
  exact hne

/-- The session keeps its record and its hand, and nothing more waits. -/
theorem SessionInv.keep (h : SessionInv clock stream loc) (hclock : clock ≤ clock')
    (hhistory : loc'.history = loc.history) (hhand : loc'.hand.Sublist loc.hand)
    (hwaits : (waits stream' loc').Sublist (waits stream loc)) : SessionInv clock' stream' loc' := by
  constructor
  · rw [hhistory]
    exact h.once.mono hclock
  · exact h.hand.sublist (hhand.map _)
  · intro row hrow hnone
    rw [hhistory]
    exact h.unmarked row (hhand.subset hrow) hnone
  · exact fun row hrow mark hmark => (h.stale row (hhand.subset hrow) mark hmark).trans_le hclock
  · exact fun row hrow hmem => h.apart row (hhand.subset hrow) (hwaits.subset hmem)
  · exact h.nodup.sublist hwaits
  · intro run hrun
    rw [hhistory]
    exact h.fresh run (hwaits.subset hrun)

theorem SessionInv.registered {nodeId : NodeId} (h : SessionInv clock stream loc)
    (hhistory : loc'.history = .registered nodeId :: loc.history) (hhand : loc'.hand = loc.hand)
    (hwaits : waits stream' loc' = waits stream loc) : SessionInv clock stream' loc' := by
  constructor
  · rw [hhistory]
    exact h.once
  · rw [hhand]
    exact h.hand
  · intro row hrow hnone
    rw [hhistory]
    exact sentSince_registered (h.unmarked row (hhand ▸ hrow) hnone)
  · rw [hhand]
    exact h.stale
  · rw [hhand, hwaits]
    exact h.apart
  · rw [hwaits]
    exact h.nodup
  · intro run hrun
    rw [hhistory]
    exact sentSince_registered (h.fresh run (hwaits ▸ hrun))

/-- A message that the session does not hold joins what waits. -/
theorem SessionInv.pushed (h : SessionInv clock stream loc) {msg : ServerMessage}
    (hpush : stream'.push = stream.push ++ [msg])
    (hnew : ∀ run, msg.run? = some run → ¬ Holds stream loc run) : SessionInv clock stream' loc := by
  have hwaits : waits stream' loc = waits stream loc ++ [msg].filterMap ServerMessage.run? :=
    waits_append rfl hpush
  cases hrun : msg.run? with
  | none =>
    have hsame : [msg].filterMap ServerMessage.run? = [] := by simp [hrun]
    rw [hsame, List.append_nil] at hwaits
    exact h.keep le_rfl rfl (List.Sublist.refl _) (hwaits ▸ List.Sublist.refl _)
  | some run =>
    have hone : [msg].filterMap ServerMessage.run? = [run] := by simp [hrun]
    rw [hone] at hwaits
    have hnot := hnew run hrun
    refine ⟨h.once, h.hand, h.unmarked, h.stale, ?_, ?_, ?_⟩
    · intro row hrow hmem
      rw [hwaits] at hmem
      rcases List.mem_append.mp hmem with hmem | hmem
      · exact h.apart row hrow hmem
      · refine hnot (.inr (.inl ?_))
        rw [← List.mem_singleton.mp hmem]
        exact List.mem_map_of_mem hrow
    · rw [hwaits]
      refine List.nodup_append.mpr ⟨h.nodup, List.pairwise_singleton _ _, ?_⟩
      intro other hother last hlast heq
      rw [heq, List.mem_singleton.mp hlast] at hother
      exact hnot (.inr (.inr hother))
    · intro other hother
      rw [hwaits] at hother
      rcases List.mem_append.mp hother with hother | hother
      · exact h.fresh other hother
      · rw [List.mem_singleton.mp hother]
        exact Bool.eq_false_iff.mpr fun hsince => hnot (.inl hsince)

theorem noteSent_forward (msg : ServerMessage) (loc : SessionLoc) :
    (noteSent msg loc).forward = none := by
  unfold noteSent
  split
  · rfl
  · split
    · rfl
    · next hnone => simpa using hnone

/-- A message that goes out stops waiting. -/
theorem waits_noteSent (msg : ServerMessage) (hpush : stream'.push = stream.push) :
    (waits stream' (noteSent msg loc)).Sublist (waits stream loc) :=
  waits_sublist (.inr (noteSent_forward msg loc)) hpush

theorem run_of_dispatch {msg : ServerMessage} {d : Dispatch} (h : msg.dispatch? = some d) :
    msg.run? = some d.run := by
  rw [ServerMessage.run?, h]
  rfl

/-- What a session may write it holds, and it holds nothing more afterwards. -/
theorem holds_noteSent {msg : ServerMessage} (hmay : mayWrite msg loc)
    (hpush : stream'.push = stream.push) (h : Holds stream' (noteSent msg loc) run) :
    Holds stream loc run := by
  rcases h with hsince | hhand | hwaits
  · unfold noteSent at hsince
    split at hsince
    · exact .inl hsince
    · next d hd =>
      have hsent : d.run = run ∨ sentSince run loc.history = true := by
        split at hsince <;> simpa [sentSince] using hsince
      rcases hsent with rfl | hsent
      · rcases hmay with hforward | ⟨-, hown, -⟩
        · refine .inr (.inr (List.mem_append_left _ ?_))
          rw [hforward, Option.bind_some, run_of_dispatch hd]
          exact List.mem_singleton_self _
        · obtain ⟨-, row, rows, hhand, rfl, -⟩ := hown d hd
          refine .inr (.inl ?_)
          rw [hhand]
          exact .head _
      · exact .inl hsent
  · refine .inr (.inl ?_)
    unfold noteSent at hhand
    split at hhand
    · exact hhand
    · split at hhand
      · exact hhand
      · rw [List.map_tail] at hhand
        exact List.mem_of_mem_tail hhand
  · exact .inr (.inr ((waits_noteSent msg hpush).subset hwaits))

/-- A send of what the session may write. -/
theorem SessionInv.sent {msg : ServerMessage} (h : SessionInv clock stream loc)
    (hmay : mayWrite msg loc) (hpush : stream'.push = stream.push) :
    SessionInv clock stream' (noteSent msg loc) := by
  have hsub : (waits stream' (noteSent msg loc)).Sublist (waits stream loc) :=
    waits_noteSent msg hpush
  cases hd : msg.dispatch? with
  | none =>
    refine h.keep le_rfl ?_ ?_ hsub
    · rw [noteSent, hd]
    · rw [noteSent, hd]
  | some d =>
    rcases hmay with hforward | ⟨hforward, hown, -⟩
    · have hloc : noteSent msg loc =
          { loc with forward := none, history := .sent d none :: loc.history } := by
        rw [noteSent, hd, hforward]
        rfl
      have hwaits : waits stream loc = d.run :: stream.push.filterMap ServerMessage.run? := by
        rw [waits, hforward, Option.bind_some, run_of_dispatch hd]
        rfl
      have hrest : waits stream' (noteSent msg loc) =
          stream.push.filterMap ServerMessage.run? := by
        rw [waits, noteSent_forward, hpush]
        rfl
      have hnodup := h.nodup
      rw [hwaits, List.nodup_cons] at hnodup
      have hunsent : sentSince d.run loc.history = false := h.fresh _ (hwaits ▸ .head _)
      refine ⟨?_, ?_, ?_, ?_, ?_, ?_, ?_⟩
      · rw [hloc]
        exact ⟨h.once, fun hsince => absurd hsince (by simp [hunsent])⟩
      · rw [hloc]
        exact h.hand
      · rw [hloc]
        intro row hrow hnone
        refine sentSince_sent (fun heq => ?_) (h.unmarked row hrow hnone)
        exact h.apart row hrow (heq ▸ hwaits ▸ .head _)
      · rw [hloc]
        exact h.stale
      · intro row hrow hmem
        rw [hloc] at hrow
        exact h.apart row hrow (hsub.subset hmem)
      · exact h.nodup.sublist hsub
      · intro run hrun
        rw [hrest] at hrun
        rw [hloc]
        refine sentSince_sent (fun heq => ?_) (h.fresh run (hwaits ▸ .tail _ hrun))
        exact hnodup.1 (heq ▸ hrun)
    · obtain ⟨-, row, rows, hhand, rfl, -⟩ := hown d hd
      have hloc : noteSent msg loc = { loc with
          hand := rows
          history := .sent ⟨row.nodeId, row.runId, row.specId, row.paramsJson⟩
            (some row.replaced) :: loc.history } := by
        rw [noteSent, hd, hforward, hhand]
        rfl
      have hrow : row ∈ loc.hand := hhand ▸ .head _
      have hrows : ∀ other ∈ rows, other ∈ loc.hand := fun other hother => hhand ▸ .tail _ hother
      have hnodup := h.hand
      rw [hhand, List.map_cons, List.nodup_cons] at hnodup
      refine ⟨?_, ?_, ?_, ?_, ?_, ?_, ?_⟩
      · rw [hloc]
        refine ⟨h.once, fun hsince => ?_⟩
        cases hreplaced : row.replaced with
        | none =>
          have hunsent := h.unmarked row hrow hreplaced
          exact absurd hsince (by rw [show Dispatch.run _ = row.run from rfl, hunsent]; decide)
        | some mark => exact ⟨mark, rfl, h.stale row hrow mark hreplaced⟩
      · rw [hloc]
        exact hnodup.2
      · rw [hloc]
        intro other hother hnone
        refine sentSince_sent (fun heq => ?_) (h.unmarked other (hrows other hother) hnone)
        refine hnodup.1 ?_
        rw [show row.run = other.run from heq]
        exact List.mem_map_of_mem hother
      · rw [hloc]
        exact fun other hother => h.stale other (hrows other hother)
      · intro other hother hmem
        rw [hloc] at hother
        exact h.apart other (hrows other hother) (hsub.subset hmem)
      · exact h.nodup.sublist hsub
      · intro run hrun
        have hold := hsub.subset hrun
        rw [hloc]
        refine sentSince_sent (fun heq => ?_) (h.fresh run hold)
        rw [← heq] at hold
        exact h.apart row hrow hold

end

/-! ## One operation -/

theorem exec_claim {nodeId : NodeId} {cutoff : Nat} {taken : List ClaimedDispatch}
    (h : exec setup t locs (.db (.claimPendingDispatches nodeId cutoff)) c w =
      some (some taken, w')) :
    taken.map (·.run) = (w.db.pending.filter fun row =>
        row.nodeId = nodeId ∧ row.available cutoff).map (·.run) ∧
      (∀ claimed ∈ taken, ∃ row ∈ w.db.pending, row.nodeId = nodeId ∧
        row.available cutoff = true ∧ claimed.run = row.run ∧ claimed.replaced = row.inFlightAt) ∧
      ∀ row' ∈ w'.db.pending, row'.inFlightAt = none →
        row' ∈ w.db.pending ∧ ¬ (row'.nodeId = nodeId ∧ row'.available cutoff = true) := by
  simp only [exec, execDb, Option.some.injEq, Prod.mk.injEq] at h
  obtain ⟨hreply, rfl⟩ := h
  split at hreply
  · cases hreply
  · next hfail =>
    cases hreply
    simp only [hfail]
    refine ⟨?_, fun claimed hclaimed => ?_, fun row' hrow' hnone => ?_⟩
    · simp only [Db.claimPendingDispatches, List.map_map]
      rfl
    · obtain ⟨row, hrow, hnode, havailable, rfl⟩ := claimPendingDispatches_gives hclaimed
      exact ⟨row, hrow, hnode, havailable, rfl, rfl⟩
    · obtain ⟨row, hrow, rfl⟩ := List.mem_map.mp hrow'
      split at hnone
      · cases hnone
      · next htakes =>
        rw [if_neg htakes]
        exact ⟨hrow, htakes⟩

theorem exec_mark {nodeId : NodeId} {runId : RunId}
    (h : exec setup t locs (.db (.markInFlight nodeId runId)) c w = some (true, w')) :
    ∀ row' ∈ w'.db.pending, row'.inFlightAt = none → row'.run ≠ (nodeId, runId) := by
  simp only [exec, execDb, Option.some.injEq, Prod.mk.injEq] at h
  obtain ⟨hreply, rfl⟩ := h
  have hchange := Option.some.inj (attempt_true hreply)
  intro row' hrow' hnone hrun
  rw [← hchange] at hrow'
  obtain ⟨row, hrow, rfl⟩ := List.mem_map.mp hrow'
  split at hnone
  · cases hnone
  · next hother =>
    rw [if_neg hother] at hrun
    exact hother ⟨congrArg Prod.fst hrun, congrArg Prod.snd hrun⟩

theorem exec_pushSend {tx : SessionId} {msg : ServerMessage} {live : Bool}
    (h : exec setup t locs (.hub (.pushSend tx msg)) c w = some (live, w'))
    (hphase : (locs (.session tx)).session.phase = .open) : live = true := by
  simp only [exec, execHub, pushSendTo, hphase, Option.some.injEq, Prod.mk.injEq] at h
  exact h.1.symm

/-- A row that is available afterwards was available, or was made so, or is new. -/
theorem RowStep.unmarked {rows rows' : List PendingRow} {now : Nat} {reply : op.Reply}
    (h : RowStep rows now op reply rows') {row' : PendingRow} (hrow' : row' ∈ rows')
    (hnone : row'.inFlightAt = none) : row' ∈ rows ∨
      (∃ row ∈ rows, row.run = row'.run ∧ op.frees row) ∨ row'.run ∈ op.inserts := by
  cases h with
  | claimed nodeId cutoff print =>
    obtain ⟨row, hrow, rfl⟩ := List.mem_map.mp hrow'
    split at hnone
    · cases hnone
    · next htakes =>
      rw [if_neg htakes]
      exact .inl hrow
  | marked nodeId runId =>
    obtain ⟨row, hrow, rfl⟩ := List.mem_map.mp hrow'
    split at hnone
    · cases hnone
    · next hother =>
      rw [if_neg hother]
      exact .inl hrow
  | freed op reply rows' hruns hmarks =>
    rcases hmarks row' hrow' with hold | hfreed
    · exact .inl hold
    · exact .inr (.inl hfreed)
  | inserted op reply added hruns =>
    rcases List.mem_append.mp hrow' with hold | hadded
    · exact .inl hold
    · exact .inr (.inr (hruns ▸ List.mem_map_of_mem hadded))
  | fewer op reply rows' hsub => exact .inl (hsub.subset hrow')

theorem RowStep.nodup {rows rows' : List PendingRow} {now : Nat} {reply : op.Reply}
    (h : RowStep rows now op reply rows') (hrows : (rows.map (·.run)).Nodup)
    (hinserts : op.inserts.Nodup) (hnew : ∀ run ∈ op.inserts, ∀ row ∈ rows, row.run ≠ run) :
    (rows'.map (·.run)).Nodup := by
  cases h with
  | claimed nodeId cutoff print =>
    rw [List.map_map]
    refine (List.map_congr_left fun row _ => ?_) ▸ hrows
    rw [Function.comp_apply]
    split <;> rfl
  | marked nodeId runId =>
    rw [List.map_map]
    refine (List.map_congr_left fun row _ => ?_) ▸ hrows
    rw [Function.comp_apply]
    split <;> rfl
  | freed op reply rows' hruns hmarks => rwa [hruns]
  | inserted op reply added hruns =>
    rw [List.map_append, hruns]
    refine List.nodup_append.mpr ⟨hrows, hinserts, fun run hrun other hother heq => ?_⟩
    obtain ⟨row, hrow, rfl⟩ := List.mem_map.mp hrun
    exact hnew other hother row hrow heq
  | fewer op reply rows' hsub => exact hrows.sublist (hsub.map _)

/-- A push channel gets what is pushed to it. -/
theorem exec_pushed {reply : op.Reply} (h : exec setup t locs op c w = some (reply, w'))
    (s : SessionId) : (w'.streams s).push = (w.streams s).push ∨
      ∃ msg, op = .hub (.pushSend s msg) ∧ (sessionOf locs s).phase = .open ∧
        (w'.streams s).push = (w.streams s).push ++ [msg] := by
  rcases exec_push h with hsame | ⟨tx, msg, hop, hphase, hpush⟩
  · exact .inl (hsame s)
  · have hs := hpush s
    split at hs
    · next heq =>
      subst heq
      exact .inr ⟨msg, hop, hphase, hs⟩
    · exact .inl hs

variable {reply : op.Reply}

/-- What the operation does to a session, also to that of another task. -/
theorem session_step (s : SessionId) (locs : Tid → Loc) :
    SendStep (sessionOf locs s) op reply
      (sessionOf (Function.update locs t (note op reply (locs t))) s) := by
  rw [sessionOf_update]
  split
  · next ht =>
    subst ht
    exact note_send op reply _
  · exact .same _ _ _

/-- A live session was live. -/
theorem live_act (he : exec setup t sys.loc op c sys.shared = some (reply, w'))
    (h : Live w' (Function.update sys.loc t (note op reply (sys.loc t))) s) :
    Live sys.shared sys.loc s := by
  obtain ⟨hphase, hlink⟩ := h
  rw [exec_downLink he] at hlink
  refine ⟨?_, hlink⟩
  generalize hstep : sessionOf (Function.update sys.loc t (note op reply (sys.loc t))) s = loc'
    at hphase
  have hsend : SendStep (sessionOf sys.loc s) op reply loc' := hstep ▸ session_step s sys.loc
  cases hsend with
  | registered req loc' hsame hhistory hhand hforward => rwa [← hsame]
  | sent msg => exact (noteSent_route msg _).phase.symm.trans hphase
  | other op reply loc' hopen hhistory hhand hforward => exact hopen hphase
  | _ => exact hphase

/-- How a session comes to hold a run: it claims the row, or the run is pushed to it. -/
def Gains (op : Op) (t : Tid) (w w' : World) (s : SessionId) (run : NodeId × RunId) : Prop :=
  (∃ nodeId cutoff, op = .db (.claimPendingDispatches nodeId cutoff) ∧ t = .session s ∧
    ∃ row ∈ w.db.pending, row.nodeId = nodeId ∧ row.available cutoff = true ∧ row.run = run ∧
      ∀ row' ∈ w'.db.pending, row'.inFlightAt = none →
        row' ∈ w.db.pending ∧ ¬ (row'.nodeId = nodeId ∧ row'.available cutoff = true)) ∨
  ∃ msg, op = .hub (.pushSend s msg) ∧ msg.run? = some run

/-- A session with the same record and hand, to which a message may have been pushed. -/
theorem holds_pushed {loc loc' : SessionLoc} {run : NodeId × RunId}
    (hpushed : (w'.streams s).push = (w.streams s).push ∨ ∃ msg, op = .hub (.pushSend s msg) ∧
      (sessionOf locs s).phase = .open ∧ (w'.streams s).push = (w.streams s).push ++ [msg])
    (hhistory : ∀ {run}, sentSince run loc'.history = true → sentSince run loc.history = true)
    (hhand : loc'.hand.map (·.run) ⊆ loc.hand.map (·.run))
    (hforward : loc'.forward = loc.forward ∨ loc'.forward = none)
    (h : Holds (w'.streams s) loc' run) : Holds (w.streams s) loc run ∨ Gains op t w w' s run := by
  rcases h with hsince | hmem | hmem
  · exact .inl (.inl (hhistory hsince))
  · exact .inl (.inr (.inl (hhand hmem)))
  · rcases List.mem_append.mp hmem with hmem | hmem
    · rcases hforward with hforward | hforward
      · rw [hforward] at hmem
        exact .inl (.inr (.inr (List.mem_append_left _ hmem)))
      · rw [hforward] at hmem
        cases hmem
    · rcases hpushed with hpush | ⟨msg, hop, -, hpush⟩
      · rw [hpush] at hmem
        exact .inl (.inr (.inr (List.mem_append_right _ hmem)))
      · rw [hpush, List.filterMap_append] at hmem
        rcases List.mem_append.mp hmem with hmem | hmem
        · exact .inl (.inr (.inr (List.mem_append_right _ hmem)))
        · obtain ⟨other, hother, hrun⟩ := List.mem_filterMap.mp hmem
          rw [List.mem_singleton.mp hother] at hrun
          exact .inr (.inr ⟨msg, hop, hrun⟩)

theorem holds_act (hpre : preOp setup t op (sys.loc t))
    (he : exec setup t sys.loc op c sys.shared = some (reply, w'))
    (h : Holds (w'.streams s)
      (sessionOf (Function.update sys.loc t (note op reply (sys.loc t))) s) run) :
    Holds (sys.shared.streams s) (sessionOf sys.loc s) run ∨ Gains op t sys.shared w' s run := by
  have hpushed := exec_pushed he s
  by_cases ht : t = .session s
  · subst ht
    rw [sessionOf_update_self] at h
    have hsend : SendStep (sessionOf sys.loc s) op reply (note op reply (sys.loc (.session s))).session :=
      note_send op reply _
    generalize (note op reply (sys.loc (.session s))).session = loc' at h hsend
    cases hsend with
    | registered req loc' hphase hhistory hhand hforward =>
      refine holds_pushed hpushed (fun {run} hsince => ?_) ?_ (.inl hforward) h
      · rw [hhistory, sentSince, Bool.and_eq_true] at hsince
        exact hsince.2
      · rw [hhand]
        exact List.Subset.refl _
    | claimed nodeId cutoff taken =>
      obtain ⟨-, htaken, hrest⟩ := exec_claim he
      rcases h with hsince | hmem | hmem
      · exact .inl (.inl hsince)
      · obtain ⟨claimed, hclaimed, rfl⟩ := List.mem_map.mp hmem
        obtain ⟨row, hrow, hnode, havailable, hrun, -⟩ := htaken claimed hclaimed
        exact .inr (.inl ⟨nodeId, cutoff, rfl, rfl, row, hrow, hnode, havailable, hrun.symm, hrest⟩)
      · exact holds_pushed hpushed id (List.Subset.refl _) (.inl rfl) (.inr (.inr hmem))
    | requeued ids reply =>
      refine holds_pushed hpushed (fun {run} hsince => ?_) ?_ ?_ h
      · exact hsince
      · exact List.nil_subset _
      · exact .inl rfl
    | sent msg =>
      rcases hpushed with hpush | ⟨msg', hop, -⟩
      · exact .inl (holds_noteSent hpre.2 hpush h)
      · cases hop
    | other op reply loc' hphase hhistory hhand hforward =>
      refine holds_pushed hpushed (fun {run} hsince => ?_) ?_ hforward h
      · rwa [hhistory] at hsince
      · rw [hhand]
        exact List.Subset.refl _
  · rw [sessionOf_update, if_neg ht] at h
    exact holds_pushed hpushed id (List.Subset.refl _) (.inl rfl) h

/-- What nobody holds stays so, unless a session comes to hold it. -/
theorem Unheld.act (h : Unheld sys.shared sys.loc run) (hpre : preOp setup t op (sys.loc t))
    (he : exec setup t sys.loc op c sys.shared = some (reply, w'))
    (hgains : ∀ s, ¬ Gains op t sys.shared w' s run) :
    Unheld w' (Function.update sys.loc t (note op reply (sys.loc t))) run := by
  intro s hlive hholds
  rcases holds_act hpre he hholds with hold | hgain
  · exact h s (live_act he hlive) hold
  · exact hgains s hgain

/-! ### The parts of the invariant -/

/-- A run that is pushed nobody holds, and no other request is to send it. -/
theorem SendInv.pushed (h : SendInv sys) (hcareful : Careful sys t) (hop : sys.about t op)
    (howner : op.ownedBy t = true) (hpre : preOp setup t op (sys.loc t)) {msg : ServerMessage}
    (heq : op = .hub (.pushSend s msg)) (hrun : msg.run? = some run) :
    ∃ r, t = .request r ∧ Unheld sys.shared sys.loc run ∧
      ((∀ row ∈ sys.shared.db.pending, row.run ≠ run) ∨
        (requestOf sys.loc r).unsent.head? = some run) ∧
      ∀ r', sys.idle (.request r') = false → run ∈ (requestOf sys.loc r').unsent →
        r' = r ∧ ∃ rest, (requestOf sys.loc r).unsent = run :: rest := by
  subst heq
  obtain ⟨r, rfl⟩ : ∃ r, t = .request r := by
    cases t with
    | request r => exact ⟨r, rfl⟩
    | session s' => cases howner
    | host nodeId task => cases howner
  have hbusy : sys.idle (.request r) = false := by
    obtain ⟨next, hp⟩ := hop
    simp only [Sys.idle, hp]
  refine ⟨r, rfl, ?_⟩
  cases hunsent : (requestOf sys.loc r).unsent with
  | nil =>
    have hnew := hcareful.push r s msg run rfl hop hrun hunsent
    exact ⟨hnew.held, .inl hnew.row, fun r' _ hmem => absurd hmem (hnew.unsent r')⟩
  | cons first rest =>
    obtain ⟨nodeId, -, -, hnext⟩ := hpre
    obtain ⟨hfirst, -⟩ := hnext first rest hunsent
    rw [hrun] at hfirst
    cases hfirst
    obtain ⟨hheld, hothers⟩ := (h.unsent r hbusy).2 run (hunsent ▸ .head _)
    refine ⟨hheld, .inr rfl, fun r' hbusy' hmem => ?_⟩
    by_cases hr : r' = r
    · exact ⟨hr, rest, rfl⟩
    · exact absurd hmem (hothers r' hr hbusy')

theorem SendInv.claimed (h : SendInv sys) {nodeId : NodeId} {cutoff : Nat}
    {taken : List ClaimedDispatch} (hcareful : Careful sys (.session s))
    (hop : sys.about (.session s) (.db (.claimPendingDispatches nodeId cutoff)))
    (hpre : preOp setup (.session s) (.db (.claimPendingDispatches nodeId cutoff))
      (sys.loc (.session s)))
    (he : exec setup (.session s) sys.loc (.db (.claimPendingDispatches nodeId cutoff)) c sys.shared =
      some (some taken, w'))
    (hlive : Live sys.shared sys.loc s) (hpush : (w'.streams s).push = (sys.shared.streams s).push) :
    SessionInv sys.shared.clock (w'.streams s) { sessionOf sys.loc s with hand := taken } := by
  have hold := h.session s hlive
  obtain ⟨hruns, htaken, -⟩ := exec_claim he
  have hwaits : waits (w'.streams s) { sessionOf sys.loc s with hand := taken } =
      waits (sys.shared.streams s) (sessionOf sys.loc s) := by
    rw [waits, waits, hpush]
  constructor
  · exact hold.once
  · rw [hruns]
    exact h.rows.sublist (List.filter_sublist.map _)
  · intro claimed hclaimed hnone
    obtain ⟨row, hrow, hnode, havailable, hrun, hreplaced⟩ := htaken claimed hclaimed
    obtain ⟨hdelivered, -⟩ := hcareful.claim s nodeId cutoff rfl hop row hrow hnode havailable
    rw [hrun]
    rcases h.marked row hrow (hreplaced ▸ hnone) with ⟨r, hr⟩ | hunheld
    · exact absurd hr (hdelivered r).2
    · exact Bool.eq_false_iff.mpr fun hsince => hunheld s hlive (.inl hsince)
  · intro claimed hclaimed mark hmark
    have hlt := (exec_gives he claimed hclaimed).2 mark hmark
    have hread : (sys.loc (.session s)).session.clockRead ≤ sys.shared.clock := h.clock s
    rw [hpre.2.2.2.2] at hlt
    omega
  · intro claimed hclaimed hmem
    obtain ⟨row, hrow, hnode, havailable, hrun, -⟩ := htaken claimed hclaimed
    obtain ⟨-, hwaiting⟩ := hcareful.claim s nodeId cutoff rfl hop row hrow hnode havailable
    rw [hwaits, hrun] at hmem
    exact hwaiting hmem
  · rw [hwaits]
    exact hold.nodup
  · rw [hwaits]
    exact hold.fresh

theorem SendInv.session_act (h : SendInv sys) (hcareful : Careful sys t) (hop : sys.about t op)
    (howner : op.ownedBy t = true) (hpre : preOp setup t op (sys.loc t))
    (he : exec setup t sys.loc op c sys.shared = some (reply, w'))
    (hlive : Live w' (Function.update sys.loc t (note op reply (sys.loc t))) s) :
    SessionInv w'.clock (w'.streams s)
      (sessionOf (Function.update sys.loc t (note op reply (sys.loc t))) s) := by
  have hbefore := live_act he hlive
  have hold := h.session s hbefore
  rw [(exec_frame he).1]
  rcases exec_pushed he s with hpush | ⟨msg, heq, -, hpush⟩
  · by_cases ht : t = .session s
    · subst ht
      rw [sessionOf_update_self]
      have hsend : SendStep (sessionOf sys.loc s) op reply
          (note op reply (sys.loc (.session s))).session := note_send op reply _
      generalize (note op reply (sys.loc (.session s))).session = loc' at hsend
      cases hsend with
      | registered req loc' hphase hhistory hhand hforward =>
        refine hold.registered hhistory hhand ?_
        rw [waits, waits, hforward, hpush]
      | claimed nodeId cutoff taken => exact h.claimed hcareful hop hpre he hbefore hpush
      | requeued ids reply =>
        exact hold.keep le_rfl rfl (List.nil_sublist _) (waits_sublist (.inl rfl) hpush)
      | sent msg => exact hold.sent hpre.2 hpush
      | other op reply loc' hphase hhistory hhand hforward =>
        exact hold.keep le_rfl hhistory (hhand ▸ List.Sublist.refl _) (waits_sublist hforward hpush)
    · rw [sessionOf_update, if_neg ht]
      exact hold.keep le_rfl rfl (List.Sublist.refl _) (waits_sublist (.inl rfl) hpush)
  · have hpushes := fun run (hrun : msg.run? = some run) =>
      h.pushed hcareful hop howner hpre heq hrun
    have hne : t ≠ .session s := by
      rintro rfl
      subst heq
      cases howner
    rw [sessionOf_update, if_neg hne]
    refine hold.pushed hpush fun run hrun => ?_
    obtain ⟨-, -, hunheld, -⟩ := hpushes run hrun
    exact hunheld s hbefore

/-- A request marks its runs one by one. -/
theorem unmarked_act {loc : Loc} (hrun : run ∈ loc.request.unmarked) :
    run ∈ (note op reply loc).request.unmarked ∨
      ∃ nodeId runId, op = .db (.markInFlight nodeId runId) ∧ HEq reply true ∧
        run = (nodeId, runId) := by
  have hstep := note_request op reply loc
  generalize (note op reply loc).request = loc' at hstep
  cases hstep with
  | marked nodeId runId =>
    by_cases heq : run = (nodeId, runId)
    · exact .inr ⟨nodeId, runId, rfl, .rfl, heq⟩
    · exact .inl (List.mem_filter.mpr ⟨hrun, by simpa using heq⟩)
  | absent nodeId => exact .inl hrun
  | pushed tx msg live =>
    cases live with
    | true => exact .inl (List.mem_append_right _ hrun)
    | false => exact .inl hrun
  | _ => exact .inl hrun

theorem SendInv.marked_act (h : SendInv sys) (hcareful : Careful sys t) (hop : sys.about t op)
    (howner : op.ownedBy t = true) (hpre : preOp setup t op (sys.loc t))
    (he : exec setup t sys.loc op c sys.shared = some (reply, w')) :
    ∀ row' ∈ w'.db.pending, row'.inFlightAt = none →
      (∃ r, row'.run ∈
        (requestOf (Function.update sys.loc t (note op reply (sys.loc t))) r).unmarked) ∨
      Unheld w' (Function.update sys.loc t (note op reply (sys.loc t))) row'.run := by
  intro row' hrow' hnone
  -- Statements that make rows available do not give runs to sessions.
  have hrows : (∃ row ∈ sys.shared.db.pending, row.run = row'.run ∧ row.inFlightAt = none) ∨
      (Unheld sys.shared sys.loc row'.run ∧ ∀ s, ¬ Gains op t sys.shared w' s row'.run) := by
    rcases (exec_rows he).unmarked hrow' hnone with hold | ⟨row, hrow, hrun, hfrees⟩ | hinserts
    · exact .inl ⟨row', hold, rfl, hnone⟩
    · cases hmark : row.inFlightAt with
      | none => exact .inl ⟨row, hrow, hrun, hmark⟩
      | some mark =>
        refine .inr ⟨?_, ?_⟩
        · rw [← hrun]
          exact hcareful.free op hop row hrow hfrees (by rw [hmark]; exact Option.some_ne_none mark)
        · rintro s (⟨nodeId, cutoff, rfl, -⟩ | ⟨msg, rfl, -⟩)
          · exact hfrees
          · exact hfrees
    · refine .inr ⟨((hcareful.insert op hop).2 _ hinserts).held, ?_⟩
      rintro s (⟨nodeId, cutoff, rfl, -⟩ | ⟨msg, rfl, -⟩)
      · cases hinserts
      · cases hinserts
  rcases hrows with ⟨row, hrow, hrun, hmark⟩ | ⟨hunheld, hgains⟩
  · by_cases hpush : ∃ s msg, op = .hub (.pushSend s msg) ∧ msg.run? = some row'.run
    · obtain ⟨s, msg, rfl, hmsg⟩ := hpush
      obtain ⟨r, rfl, hunheld, hnext, -⟩ := h.pushed hcareful hop howner hpre rfl hmsg
      by_cases hphase : (sessionOf sys.loc s).phase = .open
      · have hlive := exec_pushSend he hphase
        subst hlive
        refine .inl ⟨r, ?_⟩
        rw [requestOf_update, if_pos rfl]
        rcases hnext with hnew | hhead
        · exact absurd hrun (hnew row hrow)
        · refine List.mem_append_left _ ?_
          rw [show (sys.loc (.request r)).request.unsent.head? = some row'.run from hhead]
          exact List.mem_singleton_self _
      · refine .inr fun s' hlive hholds => ?_
        rcases holds_act hpre he hholds with hold | ⟨nodeId, cutoff, hclaim, -⟩ | ⟨msg', heq, -⟩
        · exact hunheld s' (live_act he hlive) hold
        · cases hclaim
        · cases heq
          exact hphase (live_act he hlive).1
    · rcases h.marked row hrow hmark with ⟨r, hr⟩ | hunheld
      · left
        refine ⟨r, ?_⟩
        rw [requestOf_update]
        split
        · next ht =>
          subst ht
          rw [← hrun]
          have hmarks : _ ∈ (note op reply (sys.loc (.request r))).request.unmarked ∨ _ := unmarked_act hr
          rcases hmarks with hkept | ⟨nodeId, runId, rfl, hreply, heq⟩
          · exact hkept
          · cases hreply
            exact absurd (hrun.symm.trans heq) (exec_mark he row' hrow' hnone)
        · rw [← hrun]
          exact hr
      · right
        rw [hrun] at hunheld
        refine hunheld.act hpre he fun s hgain => ?_
        rcases hgain with ⟨nodeId, cutoff, -, -, other, hother, hnode, havailable, hsame, hrest⟩ |
          ⟨msg, heq, hmsg⟩
        · obtain ⟨hold, hnot⟩ := hrest row' hrow' hnone
          have hrows := List.inj_on_of_nodup_map h.rows hother hold hsame
          subst hrows
          exact hnot ⟨hnode, havailable⟩
        · exact hpush ⟨s, msg, heq, hmsg⟩
  · exact .inr (hunheld.act hpre he hgains)

/-- What a request is to send it was to send before, or it has just committed. -/
theorem unsent_act {loc : Loc} : (note op reply loc).request.unsent.Sublist loc.request.unsent ∨
    (note op reply loc).request.unsent = op.inserts ∧ op.isPushSend = false := by
  have hstep := note_request op reply loc
  generalize (note op reply loc).request = loc' at hstep
  cases hstep with
  | committed specId paramsJson planned => exact .inr ⟨rfl, rfl⟩
  | absent nodeId | pushed tx msg live => exact .inl (List.tail_sublist _)
  | _ => exact .inl (List.Sublist.refl _)

theorem SendInv.unsent_act (h : SendInv sys) (hcareful : Careful sys t) (hop : sys.about t op)
    (howner : op.ownedBy t = true) (hpre : preOp setup t op (sys.loc t))
    (he : exec setup t sys.loc op c sys.shared = some (reply, w'))
    {idle' : RequestId → Bool} (hidle : ∀ r, idle' r = false → sys.idle (.request r) = false) :
    ∀ r, idle' r = false →
      (requestOf (Function.update sys.loc t (note op reply (sys.loc t))) r).unsent.Nodup ∧
      ∀ run ∈ (requestOf (Function.update sys.loc t (note op reply (sys.loc t))) r).unsent,
        Unheld w' (Function.update sys.loc t (note op reply (sys.loc t))) run ∧
        ∀ r', r' ≠ r → idle' r' = false → run ∉
          (requestOf (Function.update sys.loc t (note op reply (sys.loc t))) r').unsent := by
  have hlist : ∀ r, (requestOf (Function.update sys.loc t (note op reply (sys.loc t))) r).unsent.Sublist
      (requestOf sys.loc r).unsent ∨ t = .request r ∧ op.isPushSend = false ∧
      (requestOf (Function.update sys.loc t (note op reply (sys.loc t))) r).unsent = op.inserts := by
    intro r
    rw [requestOf_update]
    split
    · next ht =>
      subst ht
      exact Control.unsent_act.imp_right fun hnew => ⟨rfl, hnew.2, hnew.1⟩
    · exact .inl (List.Sublist.refl _)
  intro r hbusy
  rcases hlist r with hsub | ⟨rfl, hnopush, hnew⟩
  · obtain ⟨hnodup, hruns⟩ := h.unsent r (hidle r hbusy)
    refine ⟨hnodup.sublist hsub, fun run hrun => ?_⟩
    obtain ⟨hunheld, hothers⟩ := hruns run (hsub.subset hrun)
    constructor
    · refine hunheld.act hpre he fun s hgain => ?_
      rcases hgain with ⟨nodeId, cutoff, rfl, rfl, row, hrow, hnode, havailable, rfl, -⟩ |
        ⟨msg, heq, hmsg⟩
      · have hgone := ((hcareful.claim s nodeId cutoff rfl hop row hrow hnode havailable).1 r).1
          (hsub.subset hrun)
        rw [hidle r hbusy] at hgone
        cases hgone
      · obtain ⟨q, rfl, -, -, honly⟩ := h.pushed hcareful hop howner hpre heq hmsg
        obtain ⟨rfl, rest, hunsent⟩ := honly r (hidle r hbusy) (hsub.subset hrun)
        -- The run that is pushed is no longer among those to be sent.
        subst heq
        have hrest : run ∈ (requestOf sys.loc r).unsent.tail := by
          rw [requestOf_update, if_pos rfl] at hrun
          exact hrun
        rw [hunsent, List.tail_cons] at hrest
        rw [hunsent, List.nodup_cons] at hnodup
        exact hnodup.1 hrest
    · intro r' hne hbusy' hrun'
      rcases hlist r' with hsub' | ⟨-, -, hnew⟩
      · exact hothers r' hne (hidle r' hbusy') (hsub'.subset hrun')
      · rw [hnew] at hrun'
        exact ((hcareful.insert op hop).2 run hrun').unsent r (hsub.subset hrun)
  · rw [hnew]
    refine ⟨(hcareful.insert op hop).1, fun run hrun => ?_⟩
    have hfresh := (hcareful.insert op hop).2 run hrun
    constructor
    · refine hfresh.held.act hpre he fun s hgain => ?_
      rcases hgain with ⟨nodeId, cutoff, rfl, -⟩ | ⟨msg, rfl, -⟩
      · cases hrun
      · cases hrun
    · intro r' hne _ hrun'
      rcases hlist r' with hsub' | ⟨heq, -⟩
      · exact hfresh.unsent r' (hsub'.subset hrun')
      · cases heq
        exact hne rfl

theorem idle_after {next : op.Reply → Prog Unit} {shared : World}
    (hp : (sys.threads t).prog = .perform op next) {r : RequestId}
    (h : ((control setup).after sys t op next reply shared).idle (.request r) = false) :
    sys.idle (.request r) = false := by
  by_cases ht : t = .request r
  · subst ht
    simp only [Sys.idle, hp]
  · simpa [Sys.idle, Machine.after, Function.update_of_ne (Ne.symm ht)] using h

theorem SendInv.act {next : op.Reply → Prog Unit} (h : SendInv sys) (hcareful : Careful sys t)
    (hp : (sys.threads t).prog = .perform op next) (howner : op.ownedBy t = true)
    (hpre : preOp setup t op (sys.loc t))
    (he : exec setup t sys.loc op c sys.shared = some (reply, w')) :
    SendInv ((control setup).after sys t op next reply w') := by
  have hop : sys.about t op := ⟨next, hp⟩
  have hloc : ((control setup).after sys t op next reply w').loc =
      Function.update sys.loc t (note op reply (sys.loc t)) :=
    (control setup).after_loc sys t op next reply w'
  constructor
  · intro s
    rw [hloc, Machine.after_shared, (exec_frame he).1, sessionOf_update]
    split
    · next ht =>
      subst ht
      rcases exec_clockRead _ he with hsame | hnow
      · rw [hsame]
        exact h.clock s
      · rw [hnow]
    · exact h.clock s
  · rw [hloc]
    exact fun s hlive => h.session_act hcareful hop howner hpre he hlive
  · refine (exec_rows he).nodup h.rows (hcareful.insert op hop).1 fun run hrun => ?_
    exact ((hcareful.insert op hop).2 run hrun).row
  · rw [hloc]
    exact h.marked_act hcareful hop howner hpre he
  · rw [hloc]
    exact h.unsent_act hcareful hop howner hpre he fun r hr => idle_after hp hr

/-! ## Events -/

/-- The session keeps what it has sent and what it is to send. -/
structure SameSends (w w' : World) (loc loc' : SessionLoc) (s : SessionId) : Prop where
  link : (w'.streams s).downLink = .up → (w.streams s).downLink = .up
  push : (w'.streams s).push = (w.streams s).push
  phase : loc'.phase = loc.phase
  history : loc'.history = loc.history
  hand : loc'.hand = loc.hand
  forward : loc'.forward = loc.forward

theorem SameSends.refl (w : World) (loc : SessionLoc) (s : SessionId) : SameSends w w loc loc s :=
  ⟨id, rfl, rfl, rfl, rfl, rfl⟩

/-- A stream that changes otherwise. -/
theorem SameSends.setStream (w : World) (loc : SessionLoc) (s : SessionId) {s' : SessionId}
    {stream : Stream} (hlink : stream.downLink = .up → (w.streams s').downLink = .up)
    (hpush : stream.push = (w.streams s').push) :
    SameSends w (w.setStream s' stream) loc loc s := by
  refine ⟨?_, ?_, rfl, rfl, rfl, rfl⟩
  · rw [setStream_streams]
    split
    · next hs => exact hs ▸ hlink
    · exact id
  · rw [setStream_streams]
    split
    · next hs => rw [hpush, hs]
    · rfl

theorem SameSends.live (h : SameSends w w' (sessionOf sys.loc s) (sessionOf locs s) s)
    (hlive : Live w' locs s) : Live w sys.loc s ∧
      (sessionOf locs s).history = (sessionOf sys.loc s).history ∧
      (sessionOf locs s).hand = (sessionOf sys.loc s).hand ∧
      waits (w'.streams s) (sessionOf locs s) = waits (w.streams s) (sessionOf sys.loc s) := by
  refine ⟨⟨h.phase ▸ hlive.1, h.link hlive.2⟩, h.history, h.hand, ?_⟩
  rw [waits, waits, h.push, h.forward]

/-- What a live session has after an event it had before, unless it has just opened. -/
theorem Fired.live {e : Event} (hs : Sound setup sys) (h : Fired setup sys e w' locs)
    (hlive : Live w' locs s) : (waits (w'.streams s) (sessionOf locs s) = [] ∧
      (sessionOf locs s).hand = [] ∧ (sessionOf locs s).history = []) ∨
    Live sys.shared sys.loc s ∧ (sessionOf locs s).history = (sessionOf sys.loc s).history ∧
      (sessionOf locs s).hand = (sessionOf sys.loc s).hand ∧
      waits (w'.streams s) (sessionOf locs s) =
        waits (sys.shared.streams s) (sessionOf sys.loc s) := by
  cases h with
  | connect s' hphase | hostConnect nodeId s' hphase =>
    by_cases heq : s = s'
    · subst heq
      left
      rw [sessionOf_update_self]
      refine ⟨?_, rfl, rfl⟩
      simp [waits, World.setHost, World.setStream, Stream.new, Loc.fresh, SessionLoc.fresh]
    · refine .inr (SameSends.live ?_ hlive)
      rw [sessionOf_update_ne _ _ heq]
      refine ⟨?_, ?_, rfl, rfl, rfl, rfl⟩
      · simp [World.setHost, World.setStream, heq]
      · simp [World.setHost, World.setStream, heq]
  | clientFrame s' msg => exact .inr (SameSends.live (.setStream _ _ _ id rfl) hlive)
  | frame s' msg rest hwait hin =>
    refine .inr (SameSends.live ?_ hlive)
    have hsame : SameSends sys.shared
        (sys.shared.setStream s' { sys.shared.streams s' with inbound := rest })
        (sessionOf sys.loc s) (sessionOf sys.loc s) s := .setStream _ _ _ id rfl
    rw [sessionOf_update]
    split
    · next heq =>
      cases heq
      exact ⟨hsame.link, hsame.push, rfl, rfl, rfl, rfl⟩
    · exact hsame
  | push s' msg rest hwait hpush =>
    by_cases heq : s = s'
    · subst heq
      obtain ⟨-, hsettled⟩ := hs.settled hwait
      have hforward : (sessionOf sys.loc s).forward = none := hsettled.forward
      obtain ⟨hphase, hlink⟩ := hlive
      rw [sessionOf_update_self] at hphase ⊢
      refine .inr ⟨⟨hphase, ?_⟩, rfl, rfl, ?_⟩
      · rwa [setStream_streams, if_pos rfl] at hlink
      · rw [setStream_streams, if_pos rfl, waits, waits, hforward, hpush]
        cases hrun : msg.run? with
        | none => simp [takePush, hrun]
        | some run => simp [takePush, hrun]
    · refine .inr (SameSends.live ?_ hlive)
      rw [sessionOf_update_ne _ _ heq]
      refine ⟨?_, ?_, rfl, rfl, rfl, rfl⟩
      · simp [World.setStream, heq]
      · simp [World.setStream, heq]
  | timer s' due hwait hdue hle =>
    refine .inr (SameSends.live ?_ hlive)
    rw [sessionOf_update]
    split
    · next heq =>
      cases heq
      exact ⟨id, rfl, rfl, rfl, rfl, rfl⟩
    · exact .refl _ _ _
  | lose s' inbound wire =>
    refine .inr (SameSends.live (.setStream _ _ _ (fun hlink => ?_) rfl) hlive)
    simp only [cutStream] at hlink
    split at hlink
    · cases hlink
    · exact hlink
  | closeUp s' => exact .inr (SameSends.live (.setStream _ _ _ id rfl) hlive)
  | closeDown s' =>
    exact .inr (SameSends.live (.setStream _ _ _ (fun hlink => by cases hlink) rfl) hlive)
  | hostFrame nodeId s' msg rest hwire => exact .inr (SameSends.live (.setStream _ _ _ id rfl) hlive)
  | request r command hnew =>
    refine .inr (SameSends.live ?_ hlive)
    rw [sessionOf_update, if_neg (by simp)]
    exact ⟨id, rfl, rfl, rfl, rfl, rfl⟩
  | cancel r =>
    refine .inr (SameSends.live ?_ hlive)
    rw [sessionOf_update, if_neg (by simp)]
    exact .refl _ _ _
  | _ => exact .inr (SameSends.live ⟨id, rfl, rfl, rfl, rfl, rfl⟩ hlive)

theorem start_thread {t t' : Tid} (h : t' ≠ t) (prog : Prog Unit) (change : Loc → Loc) :
    (start sys t prog change).threads t' = sys.threads t' := by
  simp [start, h]

theorem openSession_thread (h : openSession setup sys s = some sys') :
    sys'.threads (.request r) = sys.threads (.request r) := by
  unfold openSession at h
  split at h
  · cases h
    exact start_thread (by simp) _ _
  · cases h

theorem fireSession_thread {loc : SessionLoc} {e : Event}
    (h : fireSession setup sys s loc e = some sys') :
    sys'.threads (.request r) = sys.threads (.request r) := by
  cases e with
  | frame s' | streamEnd s' | push s' =>
    simp only [fireSession] at h
    split at h <;> cases h
    exact start_thread (by simp) _ _
  | timer s' =>
    simp only [fireSession] at h
    split at h
    · split at h <;> cases h
      exact start_thread (by simp) _ _
    · cases h
  | _ => cases h

theorem fireHost_thread {nodeId : NodeId} {e : Event} (h : fireHost setup sys nodeId e = some sys') :
    sys'.threads (.request r) = sys.threads (.request r) := by
  cases e with
  | hostConnect n s' =>
    simp only [fireHost] at h
    split at h
    · obtain ⟨mid, hmid, rfl⟩ := Option.map_eq_some_iff.mp h
      have hopened : mid.threads (.request r) = sys.threads (.request r) := openSession_thread hmid
      exact (start_thread (by simp) _ _).trans hopened
    · cases h
  | hostFrame n =>
    simp only [fireHost] at h
    split at h
    · cases h
    · split at h <;> cases h
      exact start_thread (by simp) _ _
  | hostHangUp n =>
    simp only [fireHost] at h
    split at h <;> cases h
    rfl
  | hostFlush n | hostDue n specs =>
    simp only [fireHost] at h
    split at h <;> cases h
    exact start_thread (by simp) _ _
  | hostRestart n =>
    cases h
    simp [mapWorld, start]
  | _ => cases h

/-- A request that runs after an event ran before it, or has nothing to send yet. -/
theorem fire_busy {e : Event} (hs : Sound setup sys) (h : fire setup e sys = some sys')
    (hbusy : sys'.idle (.request r) = false) :
    sys.idle (.request r) = false ∨ (requestOf sys'.loc r).unsent = [] := by
  have hsame : sys'.threads (.request r) = sys.threads (.request r) →
      sys.idle (.request r) = false := by
    intro heq
    rwa [Sys.idle, heq] at hbusy
  have hsession : ∀ s e, (if waiting sys s then
      fireSession setup sys s (sys.loc (.session s)).session e else none) = some sys' →
      sys.idle (.request r) = false ∨ (requestOf sys'.loc r).unsent = [] := by
    intro s e h
    split at h
    · exact .inl (hsame (fireSession_thread h))
    · cases h
  have hfired := fire_cases hs h
  cases e with
  | request q command =>
    by_cases hq : r = q
    · subst hq
      right
      generalize sys'.loc = locs at hfired ⊢
      generalize sys'.shared = shared at hfired
      cases hfired with
      | request r command hnew =>
        rw [requestOf_update, if_pos rfl, takeRequest, hnew]
        rfl
    · left
      refine hsame ?_
      simp only [fire] at h
      split at h
      · cases h
        exact start_thread (by simpa using hq) _ _
      · cases h
  | cancel q =>
    by_cases hq : r = q
    · subst hq
      cases h
      simp [Sys.idle, start] at hbusy
    · cases h
      exact .inl (hsame (start_thread (by simpa using hq) _ _))
  | connect s => exact .inl (hsame (openSession_thread h))
  | frame s | streamEnd s | push s | timer s => exact hsession s _ h
  | closeUp s | closeDown s =>
    simp only [fire] at h
    split at h
    · cases h
    · cases h
      exact .inl (hsame rfl)
  | tick ms | clientFrame s msg | lose s inbound wire | putConfig nodeId specsJson schedulesJson
  | setDesired nodeId generation rows =>
    cases h
    exact .inl (hsame rfl)
  | hostConnect nodeId s =>
    exact .inl (hsame (@fireHost_thread setup sys sys' r nodeId (.hostConnect nodeId s) h))
  | hostFrame nodeId =>
    exact .inl (hsame (@fireHost_thread setup sys sys' r nodeId (.hostFrame nodeId) h))
  | hostHangUp nodeId =>
    exact .inl (hsame (@fireHost_thread setup sys sys' r nodeId (.hostHangUp nodeId) h))
  | hostFlush nodeId =>
    exact .inl (hsame (@fireHost_thread setup sys sys' r nodeId (.hostFlush nodeId) h))
  | hostDue nodeId specs =>
    exact .inl (hsame (@fireHost_thread setup sys sys' r nodeId (.hostDue nodeId specs) h))
  | hostRestart nodeId =>
    exact .inl (hsame (@fireHost_thread setup sys sys' r nodeId (.hostRestart nodeId) h))

theorem Fired.clocks {e : Event} (h : Fired setup sys e w' locs) (s : SessionId) :
    sys.shared.clock ≤ w'.clock ∧ ((sessionOf locs s).clockRead = (sessionOf sys.loc s).clockRead ∨
      (sessionOf locs s).clockRead = 0) := by
  cases h with
  | tick ms => exact ⟨Nat.le_add_right _ _, .inl rfl⟩
  | connect s' hphase | hostConnect nodeId s' hphase =>
    refine ⟨le_rfl, ?_⟩
    rw [sessionOf_update]
    split
    · exact .inr rfl
    · exact .inl rfl
  | frame s' msg rest hwait hin | push s' msg rest hwait hpush | timer s' due hwait hdue hle =>
    refine ⟨le_rfl, .inl ?_⟩
    rw [sessionOf_update]
    split
    · next heq =>
      cases heq
      rfl
    · rfl
  | request q command hnew | cancel q =>
    refine ⟨le_rfl, .inl ?_⟩
    rw [sessionOf_update, if_neg (by simp)]
  | _ => exact ⟨le_rfl, .inl rfl⟩

/-- An event hands no run to a session. -/
theorem Unheld.event {e : Event} (h : Unheld sys.shared sys.loc run) (hs : Sound setup sys)
    (he : Fired setup sys e w' locs) : Unheld w' locs run := by
  intro s hlive hholds
  rcases he.live hs hlive with ⟨hwaits, hhand, hhistory⟩ | ⟨hbefore, hhistory, hhand, hwaits⟩
  · rw [Holds, hwaits, hhand, hhistory] at hholds
    rcases hholds with hsince | hmem | hmem
    · cases hsince
    · cases hmem
    · cases hmem
  · refine h s hbefore ?_
    rwa [Holds, hwaits, hhand, hhistory] at hholds

theorem SendInv.event {e : Event} (h : SendInv sys) (hs : Sound setup sys)
    (hfire : fire setup e sys = some sys') : SendInv sys' := by
  have he := fire_cases hs hfire
  have hunsent : ∀ r, (requestOf sys'.loc r).unsent = (requestOf sys.loc r).unsent := by
    intro r
    rcases he.request_eq r with hsame | hsame <;> rw [hsame]
  have hunmarked : ∀ r, (requestOf sys'.loc r).unmarked = (requestOf sys.loc r).unmarked := by
    intro r
    rcases he.request_eq r with hsame | hsame <;> rw [hsame]
  constructor
  · intro s
    obtain ⟨hclock, hsame | hzero⟩ := he.clocks s
    · rw [hsame]
      exact (h.clock s).trans hclock
    · rw [hzero]
      exact Nat.zero_le _
  · intro s hlive
    rcases he.live hs hlive with ⟨hwaits, hhand, hhistory⟩ | ⟨hbefore, hhistory, hhand, hwaits⟩
    · constructor
      · rw [hhistory]
        trivial
      · rw [hhand]
        exact List.Pairwise.nil
      · rw [hhand]
        exact fun _ hrow => absurd hrow List.not_mem_nil
      · rw [hhand]
        exact fun _ hrow => absurd hrow List.not_mem_nil
      · rw [hhand]
        exact fun _ hrow => absurd hrow List.not_mem_nil
      · rw [hwaits]
        exact List.Pairwise.nil
      · rw [hwaits]
        exact fun _ hrun => absurd hrun List.not_mem_nil
    · refine (h.session s hbefore).keep (he.clocks s).1 hhistory ?_ ?_
      · rw [hhand]
      · rw [hwaits]
  · rw [he.tables.1]
    exact h.rows
  · rw [he.tables.1]
    intro row hrow hnone
    rcases h.marked row hrow hnone with ⟨r, hr⟩ | hunheld
    · exact .inl ⟨r, hunmarked r ▸ hr⟩
    · exact .inr (hunheld.event hs he)
  · intro r hbusy
    rcases fire_busy hs hfire hbusy with hbefore | hnone
    · obtain ⟨hnodup, hruns⟩ := h.unsent r hbefore
      rw [hunsent]
      refine ⟨hnodup, fun run hrun => ?_⟩
      obtain ⟨hunheld, hothers⟩ := hruns run hrun
      refine ⟨hunheld.event hs he, fun r' hne hbusy' hrun' => ?_⟩
      rcases fire_busy hs hfire hbusy' with hbefore' | hnone'
      · rw [hunsent] at hrun'
        exact hothers r' hne hbefore' hrun'
      · rw [hnone'] at hrun'
        cases hrun'
    · rw [hnone]
      exact ⟨List.Pairwise.nil, fun _ hrun => absurd hrun List.not_mem_nil⟩

/-! ## Runs -/

theorem sendInv_initial : SendInv (initial setup) := by
  constructor
  · exact fun _ => le_rfl
  · rintro s ⟨hphase, -⟩
    cases hphase
  · exact List.Pairwise.nil
  · exact fun _ hrow => absurd hrow List.not_mem_nil
  · exact fun _ hbusy => by cases hbusy

theorem sendInv_of_reaches (h : (control setup).Reaches careful (initial setup) sys) :
    SendInv sys := by
  induction h with
  | refl => exact sendInv_initial
  | @step sys sys' m hreach hok hstep ih =>
    have hs := sound_of_reaches hreach
    cases m with
    | act t c =>
      obtain ⟨op, next, reply, w', hp, he, rfl⟩ := (control setup).act_eq_some.mp hstep
      obtain ⟨howner, hpre⟩ := hs.pre ⟨next, hp⟩
      exact ih.act hok hp howner hpre he
    | event e => exact ih.event hs hstep

/-- A live session sends a run once, and again only when the mark of its row was older than the
timeout or after it has registered the node again, in runs whose steps are careful. -/
theorem sent_once (h : (control setup).Reaches careful (initial setup) sys) (s : SessionId)
    (hlive : Live sys.shared sys.loc s) :
    SentOnce sys.shared.clock (sessionOf sys.loc s).history :=
  ((sendInv_of_reaches h).session s hlive).once

/-- All but session 0 and request 0 have done nothing. -/
def OnlyFirst (sys : System) : Prop :=
  ∀ t, t ≠ .session 0 → t ≠ .request 0 →
    (sys.threads t).prog = .done () ∧ (sys.loc t).session.phase = .absent ∧
      (sys.loc t).request = .fresh

/-- The session has sent none of the runs, and has nothing to send. -/
def sentNone (sys : System) (runs : List (NodeId × RunId)) : Bool :=
  runs.all (fun run => !sentSince run (sessionOf sys.loc 0).history) &&
    (sessionOf sys.loc 0).hand.isEmpty &&
    (waits (sys.shared.streams 0) (sessionOf sys.loc 0)).isEmpty

/-- Rows are inserted before anybody sends, and claimed after their request is over. -/
def Op.apart (op : Op) (sys : System) : Bool :=
  match op with
  | .db (.claimPendingDispatches _ _) => sys.idle (.request 0) &&
      (requestOf sys.loc 0).unmarked.isEmpty &&
      (waits (sys.shared.streams 0) (sessionOf sys.loc 0)).isEmpty
  | .db (.commitDispatch _ _ planned) => decide planned.Nodup && sys.shared.db.pending.isEmpty &&
      (requestOf sys.loc 0).unsent.isEmpty && sentNone sys planned
  | .db (.requeueInFlightForNode _) => sys.shared.db.pending.isEmpty
  | .db (.enqueueDispatch _ _ _ _) | .db (.requeuePendingDispatches _) | .hub (.pushSend _ _) => false
  | _ => true

/-- Moves of session 0 and request 0 alone. -/
def apart (sys : System) : Move Tid Choice Event → Bool
  | .act t _ => nextIs (·.apart sys) sys t
  | .event (.connect 0) | .event (.clientFrame 0 _) | .event (.frame 0) | .event (.request 0 _) => true
  | .event _ => false

theorem OnlyFirst.act {setup : Setup} {sys sys' : System} {t : Tid} {c : Choice} (h : OnlyFirst sys)
    (hstep : (control setup).act sys t c = some sys') : OnlyFirst sys' := by
  obtain ⟨op, next, reply, w', hp, -, rfl⟩ := (control setup).act_eq_some.mp hstep
  intro t' hsession hrequest
  have hne : t' ≠ t := by
    rintro rfl
    rw [(h t' hsession hrequest).1] at hp
    cases hp
  have hthread : ((control setup).after sys t op next reply w').threads t' = sys.threads t' :=
    Function.update_of_ne hne _ _
  rw [Sys.loc, hthread]
  exact h t' hsession hrequest

theorem OnlyFirst.start (h : OnlyFirst sys) (w : World → World) (prog : Prog Unit)
    (change : Loc → Loc) (ht : t = .session 0 ∨ t = .request 0) :
    OnlyFirst (start (mapWorld sys w) t prog change) := by
  intro t' hsession hrequest
  have hne : t' ≠ t := by
    rintro rfl
    rcases ht with ht | ht
    · exact hsession ht
    · exact hrequest ht
  rw [Sys.loc, start_thread hne]
  exact h t' hsession hrequest

theorem OnlyFirst.event {e : Event} (h : OnlyFirst sys) (hok : apart sys (.event e) = true)
    (hfire : fire setup e sys = some sys') : OnlyFirst sys' := by
  unfold apart at hok
  split at hok
  · next heq => cases heq
  · next heq =>
    cases heq
    simp only [fire, openSession] at hfire
    split at hfire
    · cases hfire
      exact h.start _ _ _ (.inl rfl)
    · cases hfire
  · next heq =>
    cases heq
    cases hfire
    exact h
  · next heq =>
    cases heq
    simp only [fire, fireSession] at hfire
    split at hfire
    · split at hfire
      · cases hfire
        exact h.start _ _ _ (.inl rfl)
      · cases hfire
    · cases hfire
  · next heq =>
    cases heq
    simp only [fire] at hfire
    split at hfire
    · cases hfire
      exact h.start _ _ _ (.inr rfl)
    · cases hfire
  · cases hok

theorem onlyFirst_of_reaches
    (h : (control setup).Reaches (fun sys m => apart sys m = true) (initial setup) sys) :
    OnlyFirst sys := by
  induction h with
  | refl => exact fun _ _ _ => ⟨rfl, rfl, rfl⟩
  | @step sys sys' m hreach hok hstep ih =>
    cases m with
    | act t c => exact ih.act hstep
    | event e => exact ih.event hok hstep

theorem OnlyFirst.live (h : OnlyFirst sys) (hlive : Live sys.shared sys.loc s) : s = 0 := by
  by_contra hs
  have hphase := (h (.session s) (by simpa using hs) (by simp)).2.1
  rw [Live, sessionOf, hphase] at hlive
  cases hlive.1

theorem OnlyFirst.request (h : OnlyFirst sys) (hr : r ≠ 0) : requestOf sys.loc r = .fresh :=
  (h (.request r) (by simp) (by simpa using hr)).2.2

theorem OnlyFirst.newRun (h : OnlyFirst sys) {runs : List (NodeId × RunId)}
    (hpending : sys.shared.db.pending = []) (hunsent : (requestOf sys.loc 0).unsent = [])
    (hnone : sentNone sys runs = true) (hrun : run ∈ runs) : NewRun sys run := by
  simp only [sentNone, Bool.and_eq_true, List.all_eq_true, Bool.not_eq_true',
    List.isEmpty_iff] at hnone
  obtain ⟨⟨hsince, hhand⟩, hwaits⟩ := hnone
  constructor
  · rw [hpending]
    exact fun _ hrow => absurd hrow List.not_mem_nil
  · intro s hlive hholds
    obtain rfl := h.live hlive
    rcases hholds with hmem | hmem | hmem
    · rw [hsince run hrun] at hmem
      cases hmem
    · rw [hhand] at hmem
      cases hmem
    · rw [hwaits] at hmem
      cases hmem
  · intro r hmem
    by_cases hr : r = 0
    · rw [hr, hunsent] at hmem
      cases hmem
    · rw [h.request hr] at hmem
      cases hmem

theorem careful_of_apart (h : OnlyFirst sys) (hok : apart sys m = true) : careful sys m := by
  cases m with
  | event e => trivial
  | act t c =>
    have htest : ∀ op, sys.about t op → op.apart sys = true := by
      intro op hop
      rw [apart, nextIs_of_about hop] at hok
      exact hok
    constructor
    · rintro s nodeId cutoff rfl hop row - - -
      have hclaim := htest _ hop
      simp only [Op.apart, Bool.and_eq_true, List.isEmpty_iff] at hclaim
      obtain ⟨⟨hidle, hunmarked⟩, hwaits⟩ := hclaim
      obtain ⟨next, hp⟩ := hop
      have hs : s = 0 := by
        by_contra hs
        rw [(h (.session s) (by simpa using hs) (by simp)).1] at hp
        cases hp
      subst hs
      rw [hwaits]
      refine ⟨fun r => ?_, List.not_mem_nil⟩
      by_cases hr : r = 0
      · rw [hr, hunmarked]
        exact ⟨fun _ => hidle, List.not_mem_nil⟩
      · rw [h.request hr]
        exact ⟨fun hmem => absurd hmem List.not_mem_nil, List.not_mem_nil⟩
    · intro op hop row hrow hfrees
      have hfree := htest op hop
      unfold Op.frees at hfrees
      split at hfrees
      · rw [Op.apart, List.isEmpty_iff] at hfree
        rw [hfree] at hrow
        cases hrow
      · cases hfree
      · cases hfrees
    · intro op hop
      have hinsert := htest op hop
      unfold Op.inserts
      split
      · simp only [Op.apart, Bool.and_eq_true, decide_eq_true_eq, List.isEmpty_iff] at hinsert
        obtain ⟨⟨⟨hnodup, hpending⟩, hunsent⟩, hnone⟩ := hinsert
        exact ⟨hnodup, fun run hrun => h.newRun hpending hunsent hnone hrun⟩
      · cases hinsert
      · exact ⟨List.nodup_nil, fun _ hrun => absurd hrun List.not_mem_nil⟩
    · intro r tx msg run _ hop
      cases htest _ hop

theorem careful_of_reaches_apart
    (h : (control setup).Reaches (fun sys m => apart sys m = true) (initial setup) sys) :
    (control setup).Reaches careful (initial setup) sys := by
  induction h with
  | refl => exact .refl
  | @step sys sys' m hreach hok hstep ih =>
    exact .step ih (careful_of_apart (onlyFirst_of_reaches hreach) hok) hstep

def Record.isSent : Record → Bool
  | .sent _ _ => true
  | .registered _ => false

/-- A node that is not ready gets a run, and becomes ready. -/
def readyAfterDispatch : List (Move Tid Choice Event) :=
  [.event (.connect 0)] ++ clientTurn 0 (registration "node") 7 ++
  targetRequest 0 "node" "run" ++ List.replicate 2 (.act (.request 0) .plain) ++
  clientTurn 0 (.nodeReady "node" 1) 8

/-- The session flushes between the commit of a run and its send. -/
def flushedBeforeSend : List (Move Tid Choice Event) :=
  [.event (.connect 0)] ++ clientTurn 0 (registration "node") 7 ++
  clientTurn 0 (.nodeReady "node" 1) 6 ++
  targetRequest 0 "node" "run" ++ clientTurn 0 (.heartbeat "node") 7 ++
  [.act (.request 0) .plain, .event (.push 0), .act (.session 0) .plain]

/-- The row is claimed when the session is ready, and its run is sent. -/
theorem sent_once_sample : ∃ sys : System,
    (sessionOf sys.loc 0).history.map Record.isSent = [true, false] ∧
      SentOnce sys.shared.clock (sessionOf sys.loc 0).history := by
  have hrun : ((control sampleSetup).run apart (initial sampleSetup) readyAfterDispatch).any
      (fun sys => (sessionOf sys.loc 0).history.map Record.isSent = [true, false] &&
        (sessionOf sys.loc 0).phase = .open && (sys.shared.streams 0).downLink = .up) = true := by
    decide +kernel
  obtain ⟨sys, hreach, hcheck⟩ := Machine.exists_reaches_of_run (fun _ _ => id) hrun
  simp only [Bool.and_eq_true, decide_eq_true_eq] at hcheck
  obtain ⟨⟨hsent, hphase⟩, hdown⟩ := hcheck
  exact ⟨sys, hsent, sent_once (careful_of_reaches_apart hreach) 0 ⟨hphase, hdown⟩⟩

/-- The row of a run is claimed and sent before its request sends the run. -/
theorem flushed_run_sent_twice : ∃ sys : System,
    (control sampleSetup).Reaches (fun _ _ => True) (initial sampleSetup) sys ∧
      Live sys.shared sys.loc 0 ∧
      ¬ SentOnce sys.shared.clock (sessionOf sys.loc 0).history := by
  have hrun : ((control sampleSetup).run anyMove (initial sampleSetup) flushedBeforeSend).any
      (fun sys => (sessionOf sys.loc 0).history = [.sent ⟨"node", "run", "spec", "\x7b\x7d"⟩ none,
          .sent ⟨"node", "run", "spec", "\x7b\x7d"⟩ (some none), .registered "node"] &&
        (sessionOf sys.loc 0).phase = .open && (sys.shared.streams 0).downLink = .up) = true := by
    decide +kernel
  obtain ⟨sys, hreach, hcheck⟩ := Machine.exists_reaches_of_run (fun _ _ _ => trivial) hrun
  simp only [Bool.and_eq_true, decide_eq_true_eq] at hcheck
  obtain ⟨⟨hsent, hphase⟩, hdown⟩ := hcheck
  refine ⟨sys, hreach, ⟨hphase, hdown⟩, fun honce => ?_⟩
  rw [hsent] at honce
  obtain ⟨mark, hmark, -⟩ := honce.2 (by decide)
  cases hmark

end Novbot.Control
