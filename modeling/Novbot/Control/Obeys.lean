import Novbot.Control.TaskMeets

/-!
# The machine obeys the contracts

Replies are as the contract says, and every event starts a program that meets
it.  With `control_sound` the invariant rule of the machine applies to every run
from `initial`.
-/

namespace Novbot.Control

open Concurrent

variable {setup : Setup} {sys : System} {s : SessionId}

theorem claimPendingDispatches_gives {db : Db} {print : String → String} {nodeId : NodeId}
    {cutoff now : Nat} {row : ClaimedDispatch}
    (h : row ∈ (db.claimPendingDispatches print nodeId cutoff now).1) :
    ∃ r ∈ db.pending, r.nodeId = nodeId ∧ r.available cutoff = true ∧
      row = ⟨r.id, r.runId, r.specId, print r.paramsJson, r.nodeId, r.inFlightAt⟩ := by
  simp only [Db.claimPendingDispatches, List.mem_map, List.mem_filter, decide_eq_true_eq] at h
  obtain ⟨r, ⟨hr, hnode, havailable⟩, rfl⟩ := h
  exact ⟨r, hr, hnode, havailable, rfl⟩

theorem PendingRow.lt_of_available {row : PendingRow} {cutoff mark : Nat}
    (h : row.available cutoff = true) (hmark : row.inFlightAt = some mark) : mark < cutoff := by
  unfold PendingRow.available at h
  rw [hmark] at h
  exact of_decide_eq_true h

theorem exec_gives {t : Tid} {locs : Tid → Loc} {op : Op} {c : Choice} {w w' : World}
    {reply : op.Reply} (h : exec setup t locs op c w = some (reply, w')) : givesOp op reply := by
  unfold givesOp
  split
  · next nodeId cutoff rows =>
    simp only [exec, execDb] at h
    split at h
    · cases h
    · cases h
      intro row hrow
      obtain ⟨r, -, hnode, havailable, rfl⟩ := claimPendingDispatches_gives hrow
      exact ⟨hnode, fun mark hmark => PendingRow.lt_of_available havailable hmark⟩
  · trivial

/-! ## Events -/

abbrev Sound (setup : Setup) (sys : System) : Prop := (control setup).Sound (terms setup) sys

theorem Sound.mapWorld (h : Sound setup sys) (f : World → World) :
    Sound setup (mapWorld sys f) := h

/-- A thread that starts a program meeting its contract. -/
theorem Sound.start {t : Tid} {prog : Prog Unit} {change : Loc → Loc} (h : Sound setup sys)
    (hprog : Prog.Meets setup t prog (fun _ => restAt setup t) (change (sys.loc t))) :
    Sound setup (start sys t prog change) :=
  h.update hprog sys.shared

theorem SessionLoc.fresh_settled {phase : Phase} :
    (SessionLoc.fresh setup.readyTimeout phase).Settled setup :=
  ⟨rfl, rfl, fun _ => ⟨rfl, rfl⟩, fun _ h => (by cases h)⟩

/-- A session that waits in its loop is settled. -/
theorem Sound.settled (h : Sound setup sys) (hw : waiting sys s = true) :
    (sys.loc (.session s)).session.phase = .open ∧
      (sys.loc (.session s)).session.Settled setup := by
  simp only [waiting, Bool.and_eq_true, decide_eq_true_eq] at hw
  exact ⟨hw.2, (h.rest hw.1).session rfl hw.2⟩

theorem takeFrame_taking {loc : Loc} {msg : ClientMessage} (hphase : loc.session.phase = .open)
    (hsettled : loc.session.Settled setup) : (takeFrame msg loc).session.Taking msg := by
  refine ⟨hphase, rfl, hsettled.hand, hsettled.forward, rfl, fun nodeId hnode => ?_⟩
  simp only [takeFrame]
  split
  · next req hreq => exact .inl ⟨req, hreq⟩
  · exact .inr (List.mem_append_left _ (by simp [hnode]))

theorem takeFrame_settled {loc : Loc} {msg : ClientMessage}
    (hsettled : loc.session.Settled setup) : (takeFrame msg loc).session.Settled setup := by
  refine ⟨hsettled.hand, hsettled.forward, hsettled.unbound, fun nodeId hbound => ?_⟩
  obtain ⟨hpresented, hbind, hready⟩ := hsettled.bound nodeId hbound
  refine ⟨hpresented.imp_right fun h => ?_, hbind, hready⟩
  exact List.mem_append_right _ h

theorem fireSession_sound {e : Event} {sys' : System} (h : Sound setup sys)
    (hw : waiting sys s = true)
    (hfire : fireSession setup sys s (sys.loc (.session s)).session e = some sys') :
    Sound setup sys' := by
  obtain ⟨hphase, hsettled⟩ := h.settled hw
  cases e with
  | frame s' =>
    simp only [fireSession] at hfire
    split at hfire
    · cases hfire
      exact (h.mapWorld _).start (onFrame_meets (takeFrame_taking hphase hsettled)
        (takeFrame_settled hsettled))
    · cases hfire
  | streamEnd s' =>
    simp only [fireSession] at hfire
    split at hfire
    · cases hfire
    · cases hfire
      exact h.start (onStreamEnd_meets hphase hsettled)
  | push s' =>
    simp only [fireSession] at hfire
    split at hfire
    · cases hfire
      refine (h.mapWorld _).start (onPush_meets hphase rfl ?_)
      exact ⟨hsettled.hand, rfl, hsettled.unbound, hsettled.bound⟩
    · cases hfire
  | timer s' =>
    simp only [fireSession] at hfire
    split at hfire
    · next due hdue =>
      split at hfire
      · cases hfire
        refine h.start (onTimer_meets hphase ?_ rfl hdue)
        exact ⟨hsettled.hand, hsettled.forward, hsettled.unbound, hsettled.bound⟩
      · cases hfire
    · cases hfire
  | _ => cases hfire

theorem openSession_sound {sys' : System} (h : Sound setup sys)
    (hfire : openSession setup sys s = some sys') : Sound setup sys' := by
  unfold openSession at hfire
  split at hfire
  · cases hfire
    exact (h.mapWorld _).start (.ofSession fun _ => SessionLoc.fresh_settled)
  · cases hfire

theorem fireHost_sound {nodeId : NodeId} {e : Event} {sys' : System} (h : Sound setup sys)
    (hfire : fireHost setup sys nodeId e = some sys') : Sound setup sys' := by
  cases e with
  | hostConnect n s' =>
    simp only [fireHost] at hfire
    split at hfire
    · obtain ⟨mid, hmid, rfl⟩ := Option.map_eq_some_iff.mp hfire
      exact ((openSession_sound h hmid).mapWorld _).start flushSpool_meets
    · cases hfire
  | hostFrame n =>
    simp only [fireHost] at hfire
    split at hfire
    · cases hfire
    · split at hfire
      · cases hfire
        exact (h.mapWorld _).start onServer_meets
      · cases hfire
  | hostHangUp n =>
    simp only [fireHost] at hfire
    split at hfire
    · cases hfire
      exact h.mapWorld _
    · cases hfire
  | hostFlush n =>
    simp only [fireHost] at hfire
    split at hfire
    · cases hfire
      exact h.start flushSpool_meets
    · cases hfire
  | hostDue n specs =>
    simp only [fireHost] at hfire
    split at hfire
    · cases hfire
      exact h.start runDue_meets
    · cases hfire
  | hostRestart n =>
    cases hfire
    have hstop : ∀ (sys : System) (task : HostTask), Sound setup sys →
        Sound setup (start sys (.host nodeId task) (.done ()) id) :=
      fun sys task hs => hs.start .ofHost
    exact (hstop _ _ (hstop _ _ (hstop _ _ h))).mapWorld _
  | _ => cases hfire

theorem takeRequest_begun {loc : Loc} (h : loc.request = .fresh) :
    (takeRequest loc).request.Begun := by
  simp only [takeRequest, h]
  exact ⟨rfl, rfl, rfl, rfl, rfl, rfl⟩

theorem fire_sound {e : Event} {sys' : System} (h : Sound setup sys)
    (hfire : fire setup e sys = some sys') : Sound setup sys' := by
  have hsession : ∀ s e, (if waiting sys s then
      fireSession setup sys s (sys.loc (.session s)).session e else none) = some sys' →
      Sound setup sys' := by
    intro s e hfire
    split at hfire
    · next hw => exact fireSession_sound h hw hfire
    · cases hfire
  cases e with
  | tick ms => cases hfire; exact h.mapWorld _
  | connect s => exact openSession_sound h hfire
  | clientFrame s msg => cases hfire; exact h.mapWorld _
  | frame s => exact hsession s _ hfire
  | streamEnd s => exact hsession s _ hfire
  | push s => exact hsession s _ hfire
  | timer s => exact hsession s _ hfire
  | lose s inbound wire => cases hfire; exact h.mapWorld _
  | closeUp s =>
    simp only [fire] at hfire
    split at hfire
    · cases hfire
    · cases hfire; exact h.mapWorld _
  | closeDown s =>
    simp only [fire] at hfire
    split at hfire
    · cases hfire
    · cases hfire; exact h.mapWorld _
  | request r command =>
    simp only [fire] at hfire
    split at hfire
    · next hidle =>
      simp only [Bool.and_eq_true, Bool.not_eq_true'] at hidle
      cases hfire
      have hfresh := (h.rest hidle.1).request rfl hidle.2
      exact (h.mapWorld _).start (command_meets (takeRequest_begun hfresh))
    · cases hfire
  | cancel r => cases hfire; exact h.start (.ofRequest rfl)
  | putConfig nodeId specsJson schedulesJson => cases hfire; exact h.mapWorld _
  | setDesired nodeId generation rows => cases hfire; exact h.mapWorld _
  | hostConnect nodeId s => exact fireHost_sound (e := .hostConnect nodeId s) h hfire
  | hostFrame nodeId => exact fireHost_sound (e := .hostFrame nodeId) h hfire
  | hostHangUp nodeId => exact fireHost_sound (e := .hostHangUp nodeId) h hfire
  | hostFlush nodeId => exact fireHost_sound (e := .hostFlush nodeId) h hfire
  | hostDue nodeId specs => exact fireHost_sound (e := .hostDue nodeId specs) h hfire
  | hostRestart nodeId => exact fireHost_sound (e := .hostRestart nodeId) h hfire

theorem control_obeys : (control setup).Obeys (terms setup) where
  exec _ _ _ _ _ _ _ _ h := exec_gives h
  fire _ _ _ hs h := fire_sound hs h

theorem control_sound : Sound setup (initial setup) := by
  intro t
  exact ⟨fun _ h => (by cases h), fun _ _ => rfl⟩

theorem sound_of_reaches {ok : System → Move Tid Choice Event → Prop}
    (h : (control setup).Reaches ok (initial setup) sys) : Sound setup sys :=
  Machine.sound_of_reaches control_obeys control_sound h

end Novbot.Control
