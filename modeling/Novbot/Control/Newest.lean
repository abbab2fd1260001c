import Novbot.Control.Routing

/-!
# The newest ready session of a node

While the session that bound a node last is connected and ready, the hub should
reach the node through it.  Two steps break this.  A session that was superseded
keeps its gate, and registers when the gate opens; and an accepted `Register` on
a session that is bound already drops the sender of the node, after which no
session is in the hub.  `undisturbed` excludes these steps, and is exact: from a
state that a run of undisturbed steps reached, every other step breaks it.
-/

namespace Novbot.Control

open Concurrent

variable {setup : Setup} {sys sys' : System} {w w' : World} {locs : Tid → Loc} {t : Tid}
  {loc : Loc} {op : Op}

/-- The session is connected and ready under the node: it registered there and
is registered still, or waits for its next event with an open gate. -/
def Serving (sys : System) (nodeId : NodeId) (s : SessionId) : Prop :=
  let loc := sessionOf sys.loc s
  loc.phase = .open ∧ loc.bound = some nodeId ∧
    (loc.active = true ∨ waiting sys s = true ∧ loc.gate.isReady = true)

/-- The newest session of each node is the node's sender while it serves. -/
def NewestServes (sys : System) : Prop :=
  ∀ nodeId s, sys.shared.latest nodeId = some s → Serving sys nodeId s →
    sys.shared.hub.inner nodeId = some s

/-- No session registers under a node that a newer session serves, and none that
is bound to a node evicts its sender while the newest session serves. -/
def undisturbed (sys : System) : Move Tid Choice Event → Prop
  | .act (.session s) _ =>
    match (sys.threads (.session s)).prog with
    | .perform (.hub (.register nodeId)) _ =>
      ∀ s', sys.shared.latest nodeId = some s' → s' ≠ s → ¬ Serving sys nodeId s'
    | .perform (.hub (.evict nodeId)) _ =>
      (sessionOf sys.loc s).bound = some nodeId →
        ∀ s', sys.shared.latest nodeId = some s' → ¬ Serving sys nodeId s'
    | _ => True
  | _ => True

/-! ## The invariant -/

/-- The session is connected and registered under the node. -/
structure SessionLoc.Registered (loc : SessionLoc) (nodeId : NodeId) : Prop where
  phase : loc.phase = .open
  bound : loc.bound = some nodeId
  active : loc.active = true

theorem Serving.registered (hs : Sound setup sys) {nodeId : NodeId} {s : SessionId}
    (h : Serving sys nodeId s) : (sessionOf sys.loc s).Registered nodeId := by
  obtain ⟨hphase, hbound, hactive | ⟨hwait, hready⟩⟩ := h
  · exact ⟨hphase, hbound, hactive⟩
  · obtain ⟨-, -, hgate⟩ := (hs.settled hwait).2.bound nodeId hbound
    exact ⟨hphase, hbound, hgate.symm.trans hready⟩

theorem SessionLoc.Registered.serving {nodeId : NodeId} {s : SessionId}
    (h : (sessionOf sys.loc s).Registered nodeId) : Serving sys nodeId s :=
  ⟨h.phase, h.bound, .inl h.active⟩

theorem SessionLoc.Registered.same {l l' : SessionLoc} {nodeId : NodeId}
    (h : l'.Registered nodeId) (hl : l.SameRoute l') : l.Registered nodeId :=
  ⟨hl.phase ▸ h.phase, hl.bound ▸ h.bound, hl.active ▸ h.active⟩

/-- `NewestServes` for one session and its history. -/
def NewestAt (w : World) (s : SessionId) (loc : SessionLoc) : Prop :=
  ∀ nodeId, w.latest nodeId = some s → loc.Registered nodeId → w.hub.inner nodeId = some s

def Newest (w : World) (locs : Tid → Loc) : Prop := ∀ s, NewestAt w s (sessionOf locs s)

/-- `undisturbed` for an operation of a session. -/
def Undisturbing (s : SessionId) (locs : Tid → Loc) (w : World) : Op → Prop
  | .hub (.register nodeId) => ∀ s', w.latest nodeId = some s' → s' ≠ s →
    ¬ (sessionOf locs s').Registered nodeId
  | .hub (.evict nodeId) => (sessionOf locs s).bound = some nodeId →
    ∀ s', w.latest nodeId = some s' → ¬ (sessionOf locs s').Registered nodeId
  | _ => True

theorem Newest.act (h : Newest w locs) (hok : ∀ s, t = .session s → Undisturbing s locs w op)
    (hpre : preOp setup t op (locs t)) (howner : op.ownedBy t = true)
    (hstep : RouteStep t locs w op loc w') : Newest w' (Function.update locs t loc) := by
  cases hstep with
  | register s nodeId w' hs hinner hlatest =>
    subst hs
    refine forall_sessionOf_update.mpr ⟨fun n hn hreg => ?_, fun s' hs n hn hreg => ?_⟩
    · obtain rfl : nodeId = n := Option.some.inj (hpre.2.1.symm.trans hreg.bound)
      rw [hinner, Function.update_self]
    · rw [hlatest] at hn
      rw [hinner, Function.update_apply]
      split
      · next hnode =>
        subst hnode
        exact absurd hreg (hok s rfl s' hn hs)
      · exact h s' n hn hreg
  | unregister s nodeId w' hs hhub hlatest =>
    subst hs
    refine forall_sessionOf_update.mpr ⟨fun n hn hreg => ?_, fun s' hs n hn hreg => ?_⟩
    · cases hreg.active
    · rw [hlatest] at hn
      rw [hhub, Hub.unregister_inner_some]
      exact ⟨h s' n hn hreg, fun hsame => hs hsame.2⟩
  | evict s nodeId w' hs hinner hlatest =>
    subst hs
    rw [Function.update_eq_self]
    intro s' n hn hreg
    rw [hlatest] at hn
    rw [hinner, Function.update_apply]
    by_cases hbound : (locs (.session s)).session.bound = some nodeId
    · rw [if_pos hbound] at hn
      split
      · next hnode =>
        subst hnode
        exact absurd hreg (hok s rfl hbound s' hn)
      · exact h s' n hn hreg
    · -- The session is the newest one of the node now, and not bound to it yet.
      rw [if_neg hbound, Function.update_apply] at hn
      split at hn
      · next hnode =>
        obtain rfl := Option.some.inj hn
        subst hnode
        exact absurd hreg.bound hbound
      · next hnode =>
        rw [if_neg hnode]
        exact h s' n hn hreg
  | bind s nodeId gate w' hs hhub hlatest =>
    subst hs
    refine forall_sessionOf_update.mpr ⟨fun n hn hreg => ?_, fun s' hs n hn hreg => ?_⟩
    · cases hreg.active
    · rw [hlatest, Function.update_apply] at hn
      rw [hhub]
      split at hn
      · exact absurd (Option.some.inj hn).symm hs
      · exact h s' n hn hreg
  | setGate gate reason =>
    obtain ⟨s, rfl⟩ := Tid.kind_session (eq_of_beq howner).symm
    refine forall_sessionOf_update.mpr ⟨fun n hn hreg => ?_, fun s' _ => h s'⟩
    exact h s n hn ⟨hreg.phase, hreg.bound, hreg.active⟩
  | leave =>
    obtain ⟨s, rfl⟩ := Tid.kind_session (eq_of_beq howner).symm
    refine forall_sessionOf_update.mpr ⟨fun n hn hreg => ?_, fun s' _ => h s'⟩
    cases hreg.phase
  | other op loc' w' hop hinner hlatest hloc =>
    intro s n hn hreg
    rw [hlatest] at hn
    rw [hinner]
    exact h s n hn (hreg.same (sameRoute_update hloc s))

theorem Newest.event {e : Event} (h : Newest sys.shared sys.loc)
    (he : Fired setup sys e w' locs) : Newest w' locs := by
  intro s n hn hreg
  rw [he.hub.2] at hn
  rw [he.hub.1]
  rcases he.route s with hsame | ⟨-, -, hfresh⟩
  · exact h s n hn (hreg.same hsame)
  · rw [hfresh] at hreg
    cases hreg.bound

theorem undisturbing_of_undisturbed {s : SessionId} {c : Choice} {next : op.Reply → Prog Unit}
    (h : undisturbed sys (.act (.session s) c))
    (hp : (sys.threads (.session s)).prog = .perform op next) :
    Undisturbing s sys.loc sys.shared op := by
  unfold Undisturbing
  split
  · intro s' hs hne hreg
    simp only [undisturbed, hp] at h
    exact h s' hs hne hreg.serving
  · intro hbound s' hs hreg
    simp only [undisturbed, hp] at h
    exact h hbound s' hs hreg.serving
  · trivial

theorem newest_of_reaches (h : (control setup).Reaches undisturbed (initial setup) sys) :
    Newest sys.shared sys.loc := by
  refine h.invariant control_obeys control_sound ?_ ?_ ?_
  · exact fun s n hn => (by cases hn)
  · rintro sys t op c reply w' - hinv hok ⟨next, hp⟩ ⟨howner, hpre⟩ - he
    refine hinv.act (fun s ht => ?_) hpre howner (exec_route he)
    subst ht
    exact undisturbing_of_undisturbed hok hp
  · intro sys e sys' hreach hinv _ hfire
    exact hinv.event (fire_cases (sound_of_reaches hreach) hfire)

/-! ## Every other step breaks it -/

theorem disturbed_cases {s : SessionId} {c : Choice} {next : op.Reply → Prog Unit}
    (hp : (sys.threads (.session s)).prog = .perform op next)
    (h : ¬ undisturbed sys (.act (.session s) c)) :
    ∃ nodeId s', sys.shared.latest nodeId = some s' ∧ Serving sys nodeId s' ∧
      (op = .hub (.register nodeId) ∧ s' ≠ s ∨
        op = .hub (.evict nodeId) ∧ (sessionOf sys.loc s).bound = some nodeId) := by
  simp only [undisturbed, hp] at h
  split at h
  · next nodeId next' heq =>
    obtain ⟨rfl, -⟩ := Program.perform.inj heq
    push Not at h
    obtain ⟨s', hs, hne, hserving⟩ := h
    exact ⟨nodeId, s', hs, hserving, .inl ⟨rfl, hne⟩⟩
  · next nodeId next' heq =>
    obtain ⟨rfl, -⟩ := Program.perform.inj heq
    push Not at h
    obtain ⟨hbound, s', hs, hserving⟩ := h
    exact ⟨nodeId, s', hs, hserving, .inr ⟨rfl, hbound⟩⟩
  · exact absurd trivial h

/-- After a step that is not undisturbed, the newest session of a node serves it
and is not in the hub. -/
theorem not_newestServes_of_disturbed {m : Move Tid Choice Event} (hsound : Sound setup sys)
    (hstep : (control setup).step sys m = some sys') (hdisturbed : ¬ undisturbed sys m) :
    ¬ NewestServes sys' := by
  cases m with
  | event e => exact absurd trivial hdisturbed
  | act t c =>
    obtain ⟨op, next, reply, shared, hp, he, rfl⟩ := (control setup).act_eq_some.mp hstep
    cases t with
    | request r => exact absurd trivial hdisturbed
    | host n task => exact absurd trivial hdisturbed
    | session s =>
      obtain ⟨nodeId, s', hlatest, hserving, hop⟩ := disturbed_cases hp hdisturbed
      have hreg := hserving.registered hsound
      intro hserves
      rcases hop with ⟨rfl, hne⟩ | ⟨rfl, hbound⟩
      · cases he
        have hs := hserves nodeId s' hlatest (SessionLoc.Registered.serving ?_)
        · simp only [Machine.after_shared, Hub.register_inner, Function.update_self] at hs
          exact hne (Option.some.inj hs).symm
        · rw [Machine.after_loc, sessionOf_update_ne _ _ hne]
          exact hreg
      · replace hbound : (sys.loc (.session s)).session.bound = some nodeId := hbound
        simp only [control, exec, execHub, Option.some.injEq, Prod.mk.injEq, true_and] at he
        rw [if_pos hbound] at he
        subst he
        have hs := hserves nodeId s' hlatest (SessionLoc.Registered.serving ?_)
        · simp only [Machine.after_shared, Hub.evict_inner, Function.update_self] at hs
          cases hs
        · rw [Machine.after_loc]
          show (sessionOf (Function.update sys.loc _ (sys.loc _)) s').Registered nodeId
          rw [Function.update_eq_self]
          exact hreg

/-- In a run of undisturbed steps the newest ready session of a node is in the
hub, and any other step after it ends that. -/
theorem newest_session_serves :
    (∀ sys, (control setup).Reaches undisturbed (initial setup) sys → NewestServes sys) ∧
      ∀ sys m sys', (control setup).Reaches undisturbed (initial setup) sys →
        (control setup).step sys m = some sys' → (NewestServes sys' ↔ undisturbed sys m) := by
  have hserves : ∀ sys, (control setup).Reaches undisturbed (initial setup) sys →
      NewestServes sys := by
    intro sys hreach nodeId s hlatest hserving
    have hsound := sound_of_reaches hreach
    exact newest_of_reaches hreach s nodeId hlatest (hserving.registered hsound)
  refine ⟨hserves, fun sys m sys' hreach hstep => ⟨fun h => ?_, fun h => ?_⟩⟩
  · by_contra hdisturbed
    have hsound := sound_of_reaches hreach
    exact not_newestServes_of_disturbed hsound hstep hdisturbed h
  · exact hserves sys' (.step hreach h hstep)

/-- The moves of a run in which no session is superseded. -/
def alone (sys : System) : Move Tid Choice Event → Bool
  | .act (.session s) _ =>
    match (sys.threads (.session s)).prog with
    | .perform (.hub (.register nodeId)) _ => sys.shared.latest nodeId = some s
    | .perform (.hub (.evict _)) _ => false
    | _ => true
  | _ => true

theorem undisturbed_of_alone {m : Move Tid Choice Event} (h : alone sys m = true) :
    undisturbed sys m := by
  unfold alone at h
  unfold undisturbed
  split at h
  · next s c =>
    split at h
    · next nodeId next hp =>
      intro s' hs hne
      exact absurd (Option.some.inj (hs.symm.trans (of_decide_eq_true h))) hne
    · cases h
    · trivial
  · trivial

/-- A session of the node becomes ready. -/
def becomesReady : List (Move Tid Choice Event) :=
  [.event (.connect 0)] ++ clientTurn 0 (.heartbeat "node") 5 ++
  clientTurn 0 (.nodeReady "node" 0) 6

theorem newest_session_serves_sample :
    ∃ sys, Serving sys "node" 0 ∧ sys.shared.hub.inner "node" = some 0 := by
  have hrun : ((control sampleSetup).run alone (initial sampleSetup) becomesReady).any (fun sys =>
      sys.shared.latest "node" = some 0 ∧ (sessionOf sys.loc 0).phase = .open ∧
        (sessionOf sys.loc 0).bound = some "node" ∧ (sessionOf sys.loc 0).active = true) = true := by
    decide +kernel
  obtain ⟨sys, hreach, hcheck⟩ :=
    Machine.exists_reaches_of_run (fun _ _ => undisturbed_of_alone) hrun
  obtain ⟨hlatest, hphase, hbound, hactive⟩ := of_decide_eq_true hcheck
  have hserving : Serving sys "node" 0 := ⟨hphase, hbound, .inl hactive⟩
  exact ⟨sys, hserving, newest_session_serves.1 sys hreach "node" 0 hlatest hserving⟩

/-- Session 0 is superseded by session 1, which becomes ready.  Then the deadline
of session 0 passes. -/
def supersededDeadline : List (Move Tid Choice Event) :=
  [.event (.connect 0)] ++ clientTurn 0 (.heartbeat "node") 5 ++
  [.event (.connect 1)] ++ clientTurn 1 (.heartbeat "node") 5 ++
  clientTurn 1 (.nodeReady "node" 0) 6 ++
  [.event (.tick (120 * 1000)), .event (.timer 0)] ++ sessionActs 0 3

theorem superseded_session_replaces_sender :
    ∃ sys, (control sampleSetup).Reaches (fun _ _ => True) (initial sampleSetup) sys ∧
      ¬ NewestServes sys := by
  have hrun : ((control sampleSetup).run anyMove (initial sampleSetup) supersededDeadline).any (fun sys =>
      sys.shared.latest "node" = some 1 ∧ (sessionOf sys.loc 1).phase = .open ∧
        (sessionOf sys.loc 1).bound = some "node" ∧ (sessionOf sys.loc 1).active = true ∧
        sys.shared.hub.inner "node" = some 0) = true := by
    decide +kernel
  obtain ⟨sys, hreach, hcheck⟩ := Machine.exists_reaches_of_run (fun _ _ _ => trivial) hrun
  obtain ⟨hlatest, hphase, hbound, hactive, hhub⟩ := of_decide_eq_true hcheck
  refine ⟨sys, hreach, fun hserves => ?_⟩
  have hs := hserves "node" 1 hlatest ⟨hphase, hbound, .inl hactive⟩
  exact absurd (hs.symm.trans hhub) (by decide)

end Novbot.Control
