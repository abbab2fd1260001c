import Novbot.Control.Routing

/-!
# The gate over a run

A session writes a dispatch only behind an open gate, as long as three things
hold of each step (`Orderly`).  A session does not bind to another node while a
dispatch for the old one is in its push channel; a request does not push a
dispatch on a sender that it cloned before the session bound anew; and a read of
the config generation that fails does not stand for a generation the node has
not reached.  An open gate has its reason in the run since the session was bound
(`sinceBinding`).

Between two bindings the gate opens at most once and keeps its deadline, in every
run.
-/

namespace Novbot.Control

open Concurrent

variable {setup : Setup} {sys sys' : System} {w w' : World} {locs : Tid → Loc} {t : Tid}
  {loc : Loc} {op : Op} {c : Choice} {s : SessionId}
  {past : List (System × Move Tid Choice Event)}

/-! ## Runs of one session -/

def Op.isBind : Op → Bool
  | .session (.bind _ _) => true
  | _ => false

def Op.isSetGate : Op → Bool
  | .session (.setGate _) => true
  | _ => false

/-- The session starts a binding, or its life. -/
def rebinds (s : SessionId) : System × Move Tid Choice Event → Bool
  | (sys, .act t _) => t = .session s && nextIs Op.isBind sys t
  | (_, .event (.connect s')) => s' = s
  | (_, .event (.hostConnect _ s')) => s' = s
  | _ => false

/-- The session's gate reports the transition to ready. -/
def opensGate (s : SessionId) : System × Move Tid Choice Event → Bool
  | (sys, .act t _) => t = .session s && nextIs Op.isSetGate sys t
  | _ => false

/-- Some state since the session was bound last had the property. -/
def sinceBinding (s : SessionId) (P : System → Prop) :
    List (System × Move Tid Choice Event) → Prop
  | [] => False
  | (sys, m) :: past => rebinds s (sys, m) = false ∧ (P sys ∨ sinceBinding s P past)

theorem rebinds_act (h : sys.about t op) :
    rebinds s (sys, .act t c) = (decide (t = .session s) && op.isBind) := by
  simp only [rebinds, nextIs_of_about h]

theorem opensGate_act (h : sys.about t op) :
    opensGate s (sys, .act t c) = (decide (t = .session s) && op.isSetGate) := by
  simp only [opensGate, nextIs_of_about h]

/-! ## Why a gate is open -/

/-- The node the session is bound to acknowledged a config generation that was
the center's at the time, under this binding. -/
def Acknowledged (past : List (System × Move Tid Choice Event)) (s : SessionId)
    (nodeId : NodeId) : Prop :=
  sinceBinding s (fun sys => ∃ acked,
    (sessionOf sys.loc s).body = some (.nodeReady nodeId acked) ∧
      sys.shared.db.configGeneration nodeId ≤ acked) past

/-- The deadline of the binding passed. -/
def Expired (w : World) (loc : SessionLoc) : Prop :=
  ∃ due, loc.gate.boundAt.map (· + loc.gate.timeout) = some due ∧ due ≤ w.clock

/-- What each step has to leave alone. -/
structure Orderly (sys : System) (t : Tid) (c : Choice) : Prop where
  /-- No dispatch waits in the push channel of a session that binds anew. -/
  bind : ∀ s nodeId gate, t = .session s → sys.about t (.session (.bind nodeId gate)) →
    ∀ msg ∈ (sys.shared.streams s).push, msg.dispatch? = none
  /-- No dispatch is pushed to a session whose gate is closed. -/
  push : ∀ tx msg, sys.about t (.hub (.pushSend tx msg)) → msg.dispatch? ≠ none →
    (sessionOf sys.loc tx).phase = .open → (sessionOf sys.loc tx).gate.isReady = true
  /-- A failed read, which counts as generation 0, does not open a gate early. -/
  read : ∀ s nodeId m acked, t = .session s → sys.about t (.db (.configGeneration nodeId)) →
    c.fail = true → (sessionOf sys.loc s).body = some (.nodeReady m acked) → 0 ≤ acked →
    (sessionOf sys.loc s).gate.isReady = true ∨
      sys.shared.db.configGeneration nodeId ≤ acked

def orderly (sys : System) : Move Tid Choice Event → Prop
  | .act t c => Orderly sys t c
  | .event _ => True

/-! ## The invariant -/

/-- What holds of a session's gate, and of the dispatches it could write. -/
structure Gated (past : List (System × Move Tid Choice Event)) (w : World) (s : SessionId)
    (loc : SessionLoc) : Prop where
  bound : ∀ at', loc.gate.boundAt = some at' → ∃ n, loc.bound = some n
  timer : ∀ due, loc.timer = some due → due ≤ w.clock
  clockRead : loc.clockRead ≤ w.clock
  /-- A generation that was read and would open the gate. -/
  read : loc.gate.ready = false → ∀ n acked center, loc.body = some (.nodeReady n acked) →
    loc.bound = some n → loc.generationRead = some center → center.getD 0 ≤ acked →
    Acknowledged past s n
  ready : loc.gate.ready = true → ∃ n, loc.bound = some n ∧ (Acknowledged past s n ∨ Expired w loc)
  closed : loc.phase = .open → loc.gate.ready = false →
    (∀ msg ∈ (w.streams s).push, msg.dispatch? = none) ∧
      ∀ msg, loc.forward = some msg → msg.dispatch? = none

theorem Acknowledged.later {n : NodeId} {m : Move Tid Choice Event}
    (h : Acknowledged past s n) (hm : rebinds s (sys, m) = false) :
    Acknowledged ((sys, m) :: past) s n := ⟨hm, .inr h⟩

theorem Expired.later {l l' : SessionLoc} (h : Expired w l) (hclock : w.clock ≤ w'.clock)
    (hgate : l'.gate.boundAt = l.gate.boundAt) (htimeout : l'.gate.timeout = l.gate.timeout) :
    Expired w' l' := by
  obtain ⟨due, hdue, hle⟩ := h
  refine ⟨due, ?_, hle.trans hclock⟩
  rw [hgate, htimeout]
  exact hdue

/-- A step that leaves the session's binding and gate alone. -/
theorem Gated.later {l l' : SessionLoc} {m : Move Tid Choice Event} (h : Gated past w s l)
    (hm : rebinds s (sys, m) = false) (hclock : w.clock ≤ w'.clock) (hbound : l'.bound = l.bound)
    (hgate : l'.gate = l.gate) (htimer : ∀ due, l'.timer = some due → due ≤ w'.clock)
    (hclockRead : l'.clockRead ≤ w'.clock)
    (hread : l'.gate.ready = false → ∀ n acked center, l'.body = some (.nodeReady n acked) →
      l'.bound = some n → l'.generationRead = some center → center.getD 0 ≤ acked →
      Acknowledged ((sys, m) :: past) s n)
    (hclosed : l'.phase = .open → l'.gate.ready = false →
      (∀ msg ∈ (w'.streams s).push, msg.dispatch? = none) ∧
        ∀ msg, l'.forward = some msg → msg.dispatch? = none) :
    Gated ((sys, m) :: past) w' s l' := by
  refine ⟨?_, htimer, hclockRead, hread, ?_, hclosed⟩
  · rw [hgate, hbound]
    exact h.bound
  · intro hready
    rw [hgate] at hready
    obtain ⟨n, hn, hreason⟩ := h.ready hready
    refine ⟨n, hbound.trans hn, ?_⟩
    rcases hreason with hacked | hexpired
    · exact .inl (hacked.later hm)
    · exact .inr (hexpired.later hclock (by rw [hgate]) (by rw [hgate]))

/-- The push channel of a closed gate stays free of dispatches. -/
theorem push_of_orderly {reply : op.Reply} (hok : Orderly sys t c) (hop : sys.about t op)
    (he : exec setup t sys.loc op c sys.shared = some (reply, w'))
    (hphase : (sessionOf sys.loc s).phase = .open)
    (hready : (sessionOf sys.loc s).gate.ready = false)
    (hpush : ∀ msg ∈ (sys.shared.streams s).push, msg.dispatch? = none) :
    ∀ msg ∈ (w'.streams s).push, msg.dispatch? = none := by
  intro msg hmsg
  rcases exec_push he with hsame | ⟨tx, sent, rfl, -, hsent⟩
  · exact hpush msg (hsame s ▸ hmsg)
  · rw [hsent] at hmsg
    split at hmsg
    · next hs =>
      subst hs
      rcases List.mem_append.mp hmsg with hmsg | hmsg
      · exact hpush msg hmsg
      · obtain rfl := List.mem_singleton.mp hmsg
        by_contra hd
        exact absurd ((hok.push s msg hop hd hphase).symm.trans hready) (by simp)
    · exact hpush msg hmsg

/-- A session's operation other than a bind or an opening of the gate. -/
theorem Gated.other {reply : op.Reply} (h : Gated past sys.shared s (sessionOf sys.loc s))
    (loc : Loc) (hok : Orderly sys (.session s) c) (hop : sys.about (.session s) op)
    (hpre : preOp setup (.session s) op (sys.loc (.session s)))
    (he : exec setup (.session s) sys.loc op c sys.shared = some (reply, w'))
    (hloc : note op reply (sys.loc (.session s)) = loc) (hbind : op.isBind = false)
    (hbound : loc.session.bound = (sessionOf sys.loc s).bound)
    (hgate : loc.session.gate = (sessionOf sys.loc s).gate)
    (hphase : loc.session.phase = .open → (sessionOf sys.loc s).phase = .open) :
    Gated ((sys, .act (.session s) c) :: past) w' s loc.session := by
  have hm : rebinds s (sys, .act (.session s) c) = false := by
    rw [rebinds_act hop, hbind, Bool.and_false]
  have hkeeps := note_keeps op reply (sys.loc (.session s))
  have hclock := (exec_frame he).1
  rw [hloc] at hkeeps
  refine h.later hm hclock.ge hbound hgate ?_ ?_ ?_ ?_
  · rw [hkeeps.timer, hclock]
    exact h.timer
  · rw [hclock, ← hloc]
    rcases exec_clockRead _ he with hsame | hnow
    · rw [hsame]
      exact h.clockRead
    · exact hnow.le
  · intro hready n acked center hbody hn hgen hle
    rw [SessionLoc.body, hkeeps.handling] at hbody
    rw [hgate] at hready
    rw [hbound] at hn
    rw [← hloc] at hgen
    rcases exec_generationRead (sys.loc (.session s)) he with hsame | ⟨nodeId, rfl, hread⟩ | hnone
    · rw [hsame] at hgen
      exact (h.read hready n acked center hbody hn hgen hle).later hm
    · -- The read takes place now.
      obtain rfl := Option.some.inj (hread.symm.trans hgen)
      obtain rfl : n = nodeId := Option.some.inj (hn.symm.trans (hpre n acked hbody))
      refine ⟨hm, .inl ⟨acked, hbody, ?_⟩⟩
      cases hfail : c.fail with
      | false =>
        rw [hfail] at hle
        exact hle
      | true =>
        rw [hfail] at hle
        rcases hok.read s n n acked rfl hop hfail hbody hle with hopen | hgeneration
        · exact absurd (hopen.symm.trans hready) (by simp)
        · exact hgeneration
    · rw [hnone] at hgen
      cases hgen
  · intro hopen hready
    rw [hgate] at hready
    obtain ⟨hpush, hforward⟩ := h.closed (hphase hopen) hready
    refine ⟨push_of_orderly hok hop he (hphase hopen) hready hpush, fun msg hmsg => ?_⟩
    rcases hkeeps.forward with hsame | hnone
    · exact hforward msg (hsame.symm.trans hmsg)
    · exact absurd (hnone.symm.trans hmsg) (by simp)

/-- The gate opens, for the reason the session has. -/
theorem Gated.opened {gate : ReadyGate} {reason : Option Reason}
    (h : Gated past sys.shared s (sessionOf sys.loc s))
    (hop : sys.about (.session s) (.session (.setGate gate)))
    (hclosed : (sessionOf sys.loc s).gate.ready = false)
    (hgate : gate = (sessionOf sys.loc s).gate.opened)
    (hreason : ∃ why, openReason (sessionOf sys.loc s) = some why ∧
      why.valid (sessionOf sys.loc s).gate) :
    Gated ((sys, .act (.session s) c) :: past) sys.shared s
      { sessionOf sys.loc s with gate := gate, reason := reason } := by
  have hm : rebinds s (sys, .act (.session s) c) = false := by
    rw [rebinds_act hop]
    exact Bool.and_false _
  subst hgate
  obtain ⟨why, hwhy, hvalid⟩ := hreason
  refine ⟨h.bound, h.timer, h.clockRead, fun hr => (by cases hr), fun _ => ?_,
    fun _ hr => (by cases hr)⟩
  unfold openReason at hwhy
  split at hwhy
  · next due htimer =>
    cases hwhy
    obtain ⟨hdue, -⟩ := hvalid
    cases hat : (sessionOf sys.loc s).gate.boundAt with
    | none => simp [hat] at hdue
    | some at' =>
      obtain ⟨n, hn⟩ := h.bound at' hat
      exact ⟨n, hn, .inr ⟨due, hdue, h.timer due htimer⟩⟩
  · next n acked _ hbody =>
    split at hwhy
    · next hn =>
      obtain ⟨center, hgen, rfl⟩ := Option.map_eq_some_iff.mp hwhy
      exact ⟨n, hn, .inl ((h.read hclosed n acked center hbody hn hgen hvalid).later hm)⟩
    · cases hwhy
  · cases hwhy

theorem Gated.act {reply : op.Reply}
    (h : ∀ s, Gated past sys.shared s (sessionOf sys.loc s)) (hok : Orderly sys t c)
    (hop : sys.about t op) (hpre : preOp setup t op (sys.loc t))
    (he : exec setup t sys.loc op c sys.shared = some (reply, w')) (s : SessionId) :
    Gated ((sys, .act t c) :: past) w' s
      (sessionOf (Function.update sys.loc t (note op reply (sys.loc t))) s) := by
  have hclock := (exec_frame he).1
  rw [sessionOf_update]
  split
  · next ht =>
    subst ht
    have hother := fun loc => (h s).other loc hok hop hpre he
    generalize hloc : note op reply (sys.loc (.session s)) = loc at hother
    have hstep := exec_route he
    rw [hloc] at hstep
    cases hstep with
    | bind s' nodeId gate w' hs hhub hlatest =>
      obtain ⟨-, -, -, -, hforward, -, rfl⟩ := hpre
      refine ⟨fun _ _ => ⟨nodeId, rfl⟩, ?_, ?_, ?_, fun hr => (by cases hr), fun _ _ => ?_⟩
      · rw [hclock]
        exact (h s).timer
      · rw [hclock]
        exact (h s).clockRead
      · exact fun _ n acked center _ _ hgen => (by cases hgen)
      · refine ⟨fun msg hmsg => hok.bind s nodeId _ rfl hop msg ?_, fun msg hmsg => ?_⟩
        · rcases exec_push he with hsame | ⟨tx, sent, hsent, -⟩
          · exact hsame s ▸ hmsg
          · cases hsent
        · exact absurd (hforward.symm.trans hmsg) (by simp)
    | setGate gate reason => exact (h s).opened hop hpre.1 hpre.2.1 hpre.2.2
    | register s' nodeId w' hs hinner hlatest => exact hother _ rfl rfl rfl rfl id
    | unregister s' nodeId w' hs hhub hlatest => exact hother _ rfl rfl rfl rfl id
    | evict s' nodeId w' hs hinner hlatest => exact hother _ rfl rfl rfl rfl id
    | leave => exact hother _ rfl rfl rfl rfl fun hopen => (by cases hopen)
    | other op loc' w' hroutes hinner hlatest hsame =>
      refine hother _ rfl ?_ hsame.bound hsame.gate fun hopen => ?_
      · cases op with
        | session op => cases op <;> first | rfl | cases hroutes
        | _ => rfl
      · exact hsame.phase.symm.trans hopen
  · next ht =>
    have hm : rebinds s (sys, .act t c) = false := by
      rw [rebinds_act hop, decide_eq_false ht, Bool.false_and]
    refine (h s).later hm hclock.ge rfl rfl ?_ ?_ ?_ fun hopen hready => ?_
    · rw [hclock]
      exact (h s).timer
    · rw [hclock]
      exact (h s).clockRead
    · exact fun hr n acked center hb hn hg hle => ((h s).read hr n acked center hb hn hg hle).later hm
    · obtain ⟨hpush, hforward⟩ := (h s).closed hopen hready
      exact ⟨push_of_orderly hok hop he hopen hready hpush, hforward⟩

/-- A move of others, or of the environment. -/
theorem Gated.same {l : SessionLoc} {m : Move Tid Choice Event} (h : Gated past w s l)
    (hm : rebinds s (sys, m) = false) (hclock : w.clock ≤ w'.clock)
    (hpush : ∀ msg ∈ (w'.streams s).push, msg ∈ (w.streams s).push) :
    Gated ((sys, m) :: past) w' s l := by
  refine h.later hm hclock rfl rfl ?_ (h.clockRead.trans hclock) ?_ fun hopen hready => ?_
  · exact fun due hdue => (h.timer due hdue).trans hclock
  · exact fun hr n acked center hb hn hg hle => (h.read hr n acked center hb hn hg hle).later hm
  · obtain ⟨hnone, hforward⟩ := h.closed hopen hready
    exact ⟨fun msg hmsg => hnone msg (hpush msg hmsg), hforward⟩

theorem Gated.fresh {m : Move Tid Choice Event} (hpush : (w'.streams s).push = []) :
    Gated ((sys, m) :: past) w' s (.fresh setup.readyTimeout .open) := by
  refine ⟨fun _ h => (by cases h), fun _ h => (by cases h), Nat.zero_le _,
    fun _ _ _ _ h => (by cases h), fun h => (by cases h), fun _ _ => ⟨?_, ?_⟩⟩
  · rw [hpush]
    exact fun _ h => (by cases h)
  · exact fun _ h => (by cases h)

/-- A session takes an event: its binding and gate stay, and no acknowledgement
it read is in hand. -/
theorem Gated.take {e : Event} (h : Gated past w s (sessionOf sys.loc s))
    (hm : rebinds s (sys, .event e) = false) (hclock : w.clock ≤ w'.clock)
    (hbound : loc.session.bound = (sessionOf sys.loc s).bound)
    (hgate : loc.session.gate = (sessionOf sys.loc s).gate)
    (hphase : loc.session.phase = (sessionOf sys.loc s).phase)
    (hclockRead : loc.session.clockRead = (sessionOf sys.loc s).clockRead)
    (htimer : ∀ due, loc.session.timer = some due → due ≤ w'.clock)
    (hread : loc.session.generationRead = none ∨ loc.session.body = none)
    (hpush : ∀ msg ∈ (w'.streams s).push, msg ∈ (w.streams s).push)
    (hforward : ∀ msg, loc.session.forward = some msg →
      (sessionOf sys.loc s).forward = some msg ∨ msg ∈ (w.streams s).push) :
    Gated ((sys, .event e) :: past) w' s loc.session := by
  refine h.later hm hclock hbound hgate htimer ?_ ?_ ?_
  · rw [hclockRead]
    exact h.clockRead.trans hclock
  · intro _ n acked center hbody _ hgen _
    rcases hread with hnone | hnone
    · exact absurd (hnone.symm.trans hgen) (by simp)
    · exact absurd (hnone.symm.trans hbody) (by simp)
  · rw [hphase, hgate]
    intro hopen hready
    obtain ⟨hnone, hold⟩ := h.closed hopen hready
    refine ⟨fun msg hmsg => hnone msg (hpush msg hmsg), fun msg hmsg => ?_⟩
    rcases hforward msg hmsg with hmsg | hmsg
    · exact hold msg hmsg
    · exact hnone msg hmsg

theorem Gated.event {e : Event} (h : ∀ s, Gated past sys.shared s (sessionOf sys.loc s))
    (he : Fired setup sys e w' locs) (s : SessionId) :
    Gated ((sys, .event e) :: past) w' s (sessionOf locs s) := by
  have hpush : ∀ msg, msg ∈ (w'.streams s).push → msg ∈ (sys.shared.streams s).push :=
    fun msg hmsg => he.push_mem hmsg
  cases he with
  | connect s' hphase | hostConnect nodeId s' hphase =>
    rw [sessionOf_update]
    split
    · next hs =>
      cases hs
      refine Gated.fresh ?_
      show ((sys.shared.setStream s Stream.new).streams s).push = []
      rw [setStream_streams, if_pos rfl]
      rfl
    · next hs =>
      have hne : s' ≠ s := fun he => hs (by rw [he])
      exact (h s).same (decide_eq_false hne) le_rfl hpush
  | frame s' msg rest hwait hin =>
    rw [sessionOf_update]
    split
    · next hs =>
      cases hs
      exact (h s).take rfl le_rfl rfl rfl rfl rfl (fun _ ht => (by cases ht)) (.inl rfl) hpush
        fun _ hf => .inl hf
    · exact (h s).same rfl le_rfl hpush
  | push s' msg rest hwait hmsg =>
    rw [sessionOf_update]
    split
    · next hs =>
      cases hs
      refine (h s).take rfl le_rfl rfl rfl rfl rfl (fun _ ht => (by cases ht)) (.inr rfl) hpush
        fun m hf => .inr ?_
      cases hf
      rw [hmsg]
      exact List.mem_cons_self
    · exact (h s).same rfl le_rfl hpush
  | timer s' due hwait hdue hle =>
    rw [sessionOf_update]
    split
    · next hs =>
      cases hs
      refine (h s).take rfl le_rfl rfl rfl rfl rfl (fun d ht => ?_) (.inr rfl) hpush
        fun _ hf => .inl hf
      cases ht
      exact hle
    · exact (h s).same rfl le_rfl hpush
  | request r command hnew =>
    rw [sessionOf_update, if_neg (by simp)]
    exact (h s).same rfl le_rfl hpush
  | cancel r =>
    rw [sessionOf_update, if_neg (by simp)]
    exact (h s).same rfl le_rfl hpush
  | tick ms => exact (h s).same rfl (Nat.le_add_right _ _) hpush
  | _ => exact (h s).same rfl le_rfl hpush

theorem gated_of_along (h : (control setup).Along orderly (initial setup) past sys) :
    ∀ s, Gated past sys.shared s (sessionOf sys.loc s) := by
  refine h.invariant (P := fun past w locs => ∀ s, Gated past w s (sessionOf locs s))
    control_obeys control_sound ?_ ?_ ?_
  · refine fun s => ⟨fun _ h => (by cases h), fun _ h => (by cases h), le_rfl,
      fun _ _ _ _ h => (by cases h), fun h => (by cases h), fun h => (by cases h)⟩
  · rintro past sys t op c reply w' - hinv hok hop ⟨-, hpre⟩ - he
    exact Gated.act hinv hok hop hpre he
  · intro past sys e sys' hreach hinv _ hfire
    exact Gated.event hinv (fire_cases (sound_of_reaches hreach.reaches) hfire)

/-! ## Between two bindings -/

/-- The gate since a state of the run: as it was, or opened once. -/
def OpenedOnce (s : SessionId) (gate : ReadyGate) (past : List (System × Move Tid Choice Event))
    (locs : Tid → Loc) : Prop :=
  (sessionOf locs s).gate = gate ∧ past.countP (opensGate s) = 0 ∨
    gate.ready = false ∧ (sessionOf locs s).gate = gate.opened ∧ past.countP (opensGate s) = 1

theorem OpenedOnce.same {gate : ReadyGate} {locs' : Tid → Loc} {m : Move Tid Choice Event}
    (h : OpenedOnce s gate past locs) (hm : opensGate s (sys, m) = false)
    (hgate : (sessionOf locs' s).gate = (sessionOf locs s).gate) :
    OpenedOnce s gate ((sys, m) :: past) locs' := by
  unfold OpenedOnce
  rw [hgate, List.countP_cons_of_neg (by simp [hm])]
  exact h

/-- An operation of a session that does not bind it keeps the gate or opens it. -/
theorem RouteStep.gate (h : RouteStep t locs w op loc w') (hbind : op.isBind = false) :
    op.isSetGate = false ∧ loc.session.gate = (locs t).session.gate ∨
      ∃ gate, op = .session (.setGate gate) ∧ loc.session.gate = gate := by
  cases h with
  | bind s' nodeId gate w' hs hhub hlatest => cases hbind
  | setGate gate reason => exact .inr ⟨gate, rfl, rfl⟩
  | other op loc' w' hroutes hinner hlatest hsame =>
    refine .inl ⟨?_, hsame.gate⟩
    cases op with
    | session op => cases op <;> first | rfl | cases hroutes
    | _ => rfl
  | _ => exact .inl ⟨rfl, rfl⟩

theorem openedOnce_of_along {start : System} {ok : System → Move Tid Choice Event → Prop}
    (hstart : (control setup).Reaches ok (initial setup) start)
    (h : (control setup).Along (fun sys m => rebinds s (sys, m) = false) start past sys) :
    OpenedOnce s (sessionOf start.loc s).gate past sys.loc := by
  refine h.invariant (P := fun past _ locs => OpenedOnce s _ past locs) control_obeys
    (sound_of_reaches hstart) (.inl ⟨rfl, rfl⟩) ?_ ?_
  · rintro past sys t op c reply w' - hinv hok hop ⟨-, hpre⟩ - he
    rw [rebinds_act hop] at hok
    by_cases ht : t = .session s
    · subst ht
      have hbind : op.isBind = false := by simpa using hok
      have hgate := sessionOf_update_self sys.loc s (note op reply (sys.loc (.session s)))
      rcases (exec_route he).gate hbind with ⟨hset, hsame⟩ | ⟨gate, rfl, hopened⟩
      · refine hinv.same ?_ ?_
        · rw [opensGate_act hop, hset, Bool.and_false]
        · exact (congrArg SessionLoc.gate hgate).trans hsame
      · obtain ⟨hclosed, rfl, -⟩ := hpre
        have hcount : opensGate s (sys, .act (.session s) c) = true := by
          rw [opensGate_act hop]
          simp [Op.isSetGate]
        unfold OpenedOnce
        rw [List.countP_cons_of_pos hcount]
        rcases hinv with ⟨hsame, hzero⟩ | ⟨-, hopen, -⟩
        · refine .inr ⟨?_, ?_, ?_⟩
          · rw [← hsame]
            exact hclosed
          · rw [← hsame]
            exact (congrArg SessionLoc.gate hgate).trans hopened
          · rw [hzero]
        · have hready : (sessionOf sys.loc s).gate.ready = true := by
            rw [hopen]
            rfl
          exact absurd (hready.symm.trans hclosed) (by simp)
    · refine hinv.same ?_ ?_
      · rw [opensGate_act hop, decide_eq_false ht, Bool.false_and]
      · rw [sessionOf_update, if_neg ht]
  · intro past sys e sys' hreach hinv hok hfire
    have hsound := Machine.sound_of_reaches control_obeys (sound_of_reaches hstart) hreach.reaches
    refine hinv.same rfl ?_
    rcases (fire_cases hsound hfire).route s with hsame | ⟨hconnect, -⟩
    · exact hsame.gate
    · rcases hconnect with rfl | ⟨n, rfl⟩ <;> exact absurd hok (by simp [rebinds])

/-! ## The gate of a run -/

/-- The session's gate is open for a reason: the node it is bound to acknowledged
the center's generation under this binding, or the deadline passed. -/
def OpenForReason (past : List (System × Move Tid Choice Event)) (sys : System) (s : SessionId) :
    Prop :=
  (sessionOf sys.loc s).gate.isReady = true ∧
    ∃ n, (sessionOf sys.loc s).bound = some n ∧
      (Acknowledged past s n ∨ Expired sys.shared (sessionOf sys.loc s))

/-- Dispatches wait for the gate: the session is about to write one only while its
gate is open for a reason. -/
def DispatchesWait (past : List (System × Move Tid Choice Event)) (sys : System) : Prop :=
  ∀ s msg d, sys.about (.session s) (.session (.streamSend msg)) → msg.dispatch? = some d →
    OpenForReason past sys s

/-- In a stretch of the run without a new binding of the session, its gate opens
at most once and its deadline is as it was. -/
def OpensAtMostOnce (start : System) (past : List (System × Move Tid Choice Event))
    (sys : System) (s : SessionId) : Prop :=
  past.countP (opensGate s) ≤ 1 ∧
    (sessionOf sys.loc s).gate.boundAt = (sessionOf start.loc s).gate.boundAt ∧
    (sessionOf sys.loc s).gate.timeout = (sessionOf start.loc s).gate.timeout

theorem gated_dispatches :
    (∀ past sys, (control setup).Along orderly (initial setup) past sys →
      DispatchesWait past sys) ∧
    ∀ start past sys s, (control setup).Reaches (fun _ _ => True) (initial setup) start →
      (control setup).Along (fun sys m => rebinds s (sys, m) = false) start past sys →
      OpensAtMostOnce start past sys s := by
  refine ⟨fun past sys h s msg d hop hd => ?_, fun start past sys s hstart h => ?_⟩
  · have hgated := gated_of_along h s
    obtain ⟨-, hphase, hwrite⟩ := (sound_of_reaches h.reaches).pre hop
    have hready : (sessionOf sys.loc s).gate.ready = true := by
      rcases hwrite with hforward | ⟨-, hdispatch, -⟩
      · by_contra hclosed
        have hnone := (hgated.closed hphase (Bool.eq_false_iff.mpr hclosed)).2 msg hforward
        exact absurd (hnone.symm.trans hd) (by simp)
      · exact (hdispatch d hd).1
    exact ⟨hready, hgated.ready hready⟩
  · rcases openedOnce_of_along hstart h with ⟨hgate, hcount⟩ | ⟨-, hgate, hcount⟩
    · rw [OpensAtMostOnce, hgate, hcount]
      exact ⟨Nat.zero_le 1, rfl, rfl⟩
    · rw [OpensAtMostOnce, hgate, hcount]
      exact ⟨le_rfl, rfl, rfl⟩

def Op.writesDispatch : Op → Bool
  | .session (.streamSend msg) => msg.dispatch?.isSome
  | _ => false

/-- The moves of a run without faults in which no request sends. -/
def undemanding (sys : System) : Move Tid Choice Event → Bool
  | .act t c => !c.fail && !nextIs Op.isPushSend sys t &&
      match t with
      | .session s => !nextIs Op.isBind sys t || (sys.shared.streams s).push.isEmpty
      | _ => true
  | .event _ => true

theorem orderly_of_undemanding {m : Move Tid Choice Event} (h : undemanding sys m = true) :
    orderly sys m := by
  cases m with
  | event e => trivial
  | act t c =>
    simp only [undemanding, Bool.and_eq_true, Bool.not_eq_true'] at h
    obtain ⟨⟨hfail, hsend⟩, hbind⟩ := h
    refine ⟨fun s nodeId gate ht hop msg hmsg => ?_, fun tx msg hop => ?_,
      fun s nodeId m acked ht hop hf => ?_⟩
    · subst ht
      rw [nextIs_of_about hop] at hbind
      have hempty : (sys.shared.streams s).push = [] := by simpa [Op.isBind] using hbind
      rw [hempty] at hmsg
      cases hmsg
    · rw [nextIs_of_about hop] at hsend
      cases hsend
    · exact absurd (hfail.symm.trans hf) (by simp)

/-- A target dispatch is queued for a registered node, which then becomes ready
and is about to be sent the dispatch. -/
def queuedThenReady : List (Move Tid Choice Event) :=
  [.event (.connect 0)] ++ clientTurn 0 (registration "node") 7 ++
  targetRequest 0 "node" "run" ++
  clientTurn 0 (.nodeReady "node" 1) 5 ++ [.act (.session 0) (.name "flush")]

theorem gated_dispatches_sample : ∃ past sys, OpenForReason past sys 0 := by
  have hrun : ((control sampleSetup).run undemanding (initial sampleSetup) queuedThenReady).any
      (fun sys => nextIs Op.writesDispatch sys (.session 0)) = true := by
    decide +kernel
  obtain ⟨sys, hreach, hnext⟩ :=
    Machine.exists_reaches_of_run (fun _ _ => orderly_of_undemanding) hrun
  obtain ⟨past, hpast⟩ := hreach.along
  obtain ⟨op, hop, hwrites⟩ := about_of_nextIs hnext
  unfold Op.writesDispatch at hwrites
  split at hwrites
  · next msg =>
    obtain ⟨d, hd⟩ := Option.isSome_iff_exists.mp hwrites
    exact ⟨past, sys, gated_dispatches.1 past sys hpast 0 msg d hop hd⟩
  · cases hwrites

/-- A dispatch is pushed to a ready node's session, which binds to another node
before it takes the dispatch. -/
def pushedThenRebound : List (Move Tid Choice Event) :=
  [.event (.connect 0)] ++ clientTurn 0 (registration "node") 7 ++
  clientTurn 0 (.nodeReady "node" 1) 6 ++
  targetRequest 0 "node" "run" ++ [.act (.request 0) .plain] ++
  clientTurn 0 (.heartbeat "other") 7 ++ [.event (.push 0)]

theorem dispatch_written_behind_closed_gate :
    ∃ past sys, (control sampleSetup).Along (fun _ _ => True) (initial sampleSetup) past sys ∧
      ¬ DispatchesWait past sys := by
  have hrun : ((control sampleSetup).run anyMove (initial sampleSetup) pushedThenRebound).any
      (fun sys => nextIs Op.writesDispatch sys (.session 0) &&
        !(sessionOf sys.loc 0).gate.isReady) = true := by
    decide +kernel
  obtain ⟨sys, hreach, hcheck⟩ := Machine.exists_reaches_of_run (fun _ _ _ => trivial) hrun
  obtain ⟨past, hpast⟩ := hreach.along
  obtain ⟨hnext, hclosed⟩ := Bool.and_eq_true_iff.mp hcheck
  obtain ⟨op, hop, hwrites⟩ := about_of_nextIs hnext
  refine ⟨past, sys, hpast, fun hwait => ?_⟩
  unfold Op.writesDispatch at hwrites
  split at hwrites
  · next msg =>
    obtain ⟨d, hd⟩ := Option.isSome_iff_exists.mp hwrites
    have hready := (hwait 0 msg d hop hd).1
    simp [hready] at hclosed
  · cases hwrites

end Novbot.Control
