import Novbot.Control.Steps

/-!
# How a node is reached

The hub holds a session's sender under a node only while the session is bound to
the node, and only after its gate opened.  This holds of every run.

It does not follow that the hub holds the *newest* ready session of a node.  A
session that was superseded keeps its deadline, and registers when the deadline
passes; and a `Register` on a session that is already bound drops the sender and
does not put it back.  `undisturbed` names these two steps, and without them the
newest ready session of a node is the one in the hub.
-/

namespace Novbot.Control

open Concurrent

variable {setup : Setup} {w w' : World} {locs : Tid → Loc} {t : Tid} {loc : Loc} {op : Op}

/-! ## Bindings -/

/-- A task that keeps its binding keeps every session's. -/
theorem sameRoute_update (h : (locs t).session.SameRoute loc.session) (s : SessionId) :
    (sessionOf locs s).SameRoute (sessionOf (Function.update locs t loc) s) := by
  rw [sessionOf_update]
  split
  · next ht =>
    subst ht
    exact h
  · exact .refl _

theorem keeps_update (h : (locs t).session.Keeps loc.session) (s : SessionId) :
    (sessionOf locs s).Keeps (sessionOf (Function.update locs t loc) s) := by
  rw [sessionOf_update]
  split
  · next ht =>
    subst ht
    exact h
  · exact .refl _

/-- An event leaves the binding of a session alone, or makes the session. -/
theorem Fired.route {sys : System} {e : Event} (h : Fired setup sys e w' locs) (s : SessionId) :
    (sessionOf sys.loc s).SameRoute (sessionOf locs s) ∨
      (e = .connect s ∨ ∃ n, e = .hostConnect n s) ∧ (sessionOf sys.loc s).phase = .absent ∧
        sessionOf locs s = .fresh setup.readyTimeout .open := by
  cases h with
  | connect s' hphase =>
    rw [sessionOf_update]
    split
    · next hs =>
      cases hs
      exact .inr ⟨.inl rfl, hphase, rfl⟩
    · exact .inl (.refl _)
  | hostConnect nodeId s' hphase =>
    rw [sessionOf_update]
    split
    · next hs =>
      cases hs
      exact .inr ⟨.inr ⟨nodeId, rfl⟩, hphase, rfl⟩
    · exact .inl (.refl _)
  | frame s' msg | push s' msg | timer s' due | request r command | cancel r =>
    refine .inl (sameRoute_update ?_ s)
    exact ⟨rfl, rfl, rfl, rfl⟩
  | _ => exact .inl (.refl _)

theorem Fired.hub {sys : System} {e : Event} (h : Fired setup sys e w' locs) :
    w'.hub = sys.shared.hub ∧ w'.latest = sys.shared.latest := by
  cases h <;> exact ⟨rfl, rfl⟩

/-! ## What holds of every run -/

/-- The hub's sender of a node belongs to a session that is bound to the node
and registered, and a registered session has an open gate. -/
structure RoutedAt (inner : NodeId → Option SessionId) (s : SessionId) (loc : SessionLoc) :
    Prop where
  inHub : ∀ n, inner n = some s → loc.bound = some n ∧ loc.active = true
  active : loc.active = true → loc.gate.ready = true ∧ loc.phase ≠ .absent

def Routed (w : World) (locs : Tid → Loc) : Prop :=
  ∀ s, RoutedAt w.hub.inner s (sessionOf locs s)

theorem RoutedAt.same {inner : NodeId → Option SessionId} {s : SessionId} {l l' : SessionLoc}
    (h : RoutedAt inner s l) (hl : l.SameRoute l') : RoutedAt inner s l' := by
  refine ⟨fun n hn => ?_, fun ha => ?_⟩
  · rw [hl.bound, hl.active]
    exact h.inHub n hn
  · rw [hl.gate, hl.phase]
    exact h.active (hl.active ▸ ha)

/-- A session that is not registered is not in the hub. -/
theorem RoutedAt.of_inactive {inner : NodeId → Option SessionId} {s : SessionId}
    {l l' : SessionLoc} (h : RoutedAt inner s l) (hl : l.active = false)
    (hl' : l'.active = false) : RoutedAt inner s l' := by
  refine ⟨fun n hn => ?_, fun ha => ?_⟩
  · exact absurd ((h.inHub n hn).2.symm.trans hl) (by simp)
  · exact absurd (ha.symm.trans hl') (by simp)

theorem Routed.act (h : Routed w locs) (hpre : preOp setup t op (locs t))
    (howner : op.ownedBy t = true) (hstep : RouteStep t locs w op loc w') :
    Routed w' (Function.update locs t loc) := by
  cases hstep with
  | register s nodeId w' hs hinner =>
    subst hs
    obtain ⟨hphase, hbound, hready, -⟩ := hpre
    refine forall_sessionOf_update.mpr ⟨⟨fun n hn => ?_, fun _ => ?_⟩, fun s' hs => ?_⟩
    · refine ⟨?_, rfl⟩
      rw [hinner, Function.update_apply] at hn
      split at hn
      · next hnode =>
        rw [hnode]
        exact hbound
      · exact ((h s).inHub n hn).1
    · exact ⟨hready, fun ha => absurd (hphase.symm.trans ha) (by simp)⟩
    · refine ⟨fun n hn => ?_, (h s').active⟩
      rw [hinner, Function.update_apply] at hn
      split at hn
      · exact absurd (Option.some.inj hn).symm hs
      · exact (h s').inHub n hn
  | unregister s nodeId w' hs hhub =>
    subst hs
    refine forall_sessionOf_update.mpr ⟨⟨fun n hn => ?_, fun ha => (by cases ha)⟩, fun s' _ => ?_⟩
    · rw [hhub, Hub.unregister_inner_some] at hn
      obtain ⟨hin, hne⟩ := hn
      have hbound := ((h s).inHub n hin).1
      exact absurd ⟨Option.some.inj (hbound.symm.trans hpre), rfl⟩ hne
    · refine ⟨fun n hn => ?_, (h s').active⟩
      rw [hhub, Hub.unregister_inner_some] at hn
      exact (h s').inHub n hn.1
  | evict s nodeId w' hs hinner =>
    rw [Function.update_eq_self]
    refine fun s' => ⟨fun n hn => ?_, (h s').active⟩
    rw [hinner, Function.update_apply] at hn
    split at hn
    · cases hn
    · exact (h s').inHub n hn
  | bind s nodeId gate w' hs hhub =>
    subst hs
    obtain ⟨-, -, hactive, -⟩ := hpre
    rw [Routed, hhub]
    exact forall_sessionOf_update.mpr ⟨(h s).of_inactive hactive rfl, fun s' _ => h s'⟩
  | setGate gate reason =>
    obtain ⟨s, rfl⟩ := Tid.kind_session (eq_of_beq howner).symm
    obtain ⟨-, rfl, -⟩ := hpre
    refine forall_sessionOf_update.mpr ⟨⟨(h s).inHub, fun ha => ?_⟩, fun s' _ => h s'⟩
    exact ⟨rfl, ((h s).active ha).2⟩
  | leave =>
    obtain ⟨s, rfl⟩ := Tid.kind_session (eq_of_beq howner).symm
    refine forall_sessionOf_update.mpr ⟨⟨(h s).inHub, fun ha => ?_⟩, fun s' _ => h s'⟩
    exact ⟨((h s).active ha).1, fun hp => (by cases hp)⟩
  | other op loc' w' hop hinner hlatest hloc =>
    intro s
    rw [hinner]
    exact (h s).same (sameRoute_update hloc s)

theorem Routed.event {sys : System} {e : Event} (h : Routed sys.shared sys.loc)
    (he : Fired setup sys e w' locs) : Routed w' locs := by
  intro s
  rw [he.hub.1]
  rcases he.route s with hsame | ⟨-, habsent, hfresh⟩
  · exact (h s).same hsame
  · rw [hfresh]
    refine (h s).of_inactive ?_ rfl
    exact Bool.eq_false_iff.mpr fun ha => ((h s).active ha).2 habsent

/-- A session is bound as before, or binds now. -/
theorem RouteStep.bound (h : RouteStep t locs w op loc w') (s : SessionId) :
    (sessionOf (Function.update locs t loc) s).bound = (sessionOf locs s).bound ∨
      t = .session s ∧ ∃ n gate, op = .session (.bind n gate) ∧
        (sessionOf (Function.update locs t loc) s).bound = some n := by
  rw [sessionOf_update]
  split
  · next ht =>
    cases h with
    | bind s' n gate => exact .inr ⟨ht, n, gate, rfl, rfl⟩
    | other op loc' w' hop hinner hlatest hloc => exact .inl (hloc.bound.trans (by rw [ht]; rfl))
    | _ => exact .inl (by rw [ht]; rfl)
  · exact .inl rfl

/-- No operation makes a session absent. -/
theorem RouteStep.absent (h : RouteStep t locs w op loc w') {s : SessionId}
    (hs : (sessionOf (Function.update locs t loc) s).phase = .absent) :
    (sessionOf locs s).phase = .absent := by
  rw [sessionOf_update] at hs
  split at hs
  · next ht =>
    unfold sessionOf
    rw [← ht]
    cases h with
    | leave => cases hs
    | other op loc' w' hop hinner hlatest hloc => exact hloc.phase ▸ hs
    | _ => exact hs
  · exact hs

variable {ok : System → Move Tid Choice Event → Prop} {sys : System}

theorem routed_of_reaches (h : (control setup).Reaches ok (initial setup) sys) :
    Routed sys.shared sys.loc := by
  refine h.invariant control_obeys control_sound ?_ ?_ ?_
  · exact fun s => ⟨fun n hn => (by cases hn), fun ha => (by cases ha)⟩
  · rintro sys t op c reply w' - hr - - ⟨howner, hpre⟩ - he
    exact hr.act hpre howner (exec_route he)
  · intro sys e sys' hreach hr _ hfire
    exact hr.event (fire_cases (sound_of_reaches hreach) hfire)

end Novbot.Control
