import Novbot.Spool.Node

/-!
# Where reports are kept

A report that a node produced stays in its spool file or in the hands of a task until it is
*safe*.  That is when a channel took it, for the spool itself (`enqueued_kept`), and when the
center answered `accepted` for its run, for the delivery as a whole (`produced_retained`).
It can fail for three reasons: a flush clears what it did not read, a flush stops before its
last report, and a channel takes a report that is not safe by that.  `allPlaced_of_reaches` is
the rule for both notions.
-/

namespace Novbot.Spool

open Concurrent Control

/-! ## Runs that keep reports -/

/-- The channel takes the report. -/
def Node.takes (node : Node) (s : SessionId) : Prop := (node.channels s).link ≠ .closed

/-- A flush clears only what it read, and stops only at its last report. -/
structure Careful (sys : System) (m : Move Nat Unit Event) : Prop where
  clear : ∀ t, m = .act t () → sys.about t .clearFile → ∀ report, sys.shared.inFile report →
    report ∈ (sys.loc t).reports
  unsent : ∀ t, m = .act t () → sys.about t .sessionOut → sys.shared.out = none →
    (sys.loc t).hand.length ≤ 1
  failed : ∀ t s report, m = .act t () → sys.about t (.clientSend s report) →
    ¬ sys.shared.takes s → (sys.loc t).hand.length ≤ 1

/-- A channel takes no report before the center accepted its run. -/
def TakesAccepted (sys : System) (m : Move Nat Unit Event) : Prop :=
  ∀ t s report, m = .act t () → sys.about t (.clientSend s report) → sys.shared.takes s →
    report.runId ∈ sys.shared.accepted

/-! ## The invariant -/

/-- The report is in the file, in a task's hands and not in its own line, or safe. -/
def Placed (safe : Node → ReportResultRequest → Prop) (node : Node) (locs : Nat → Loc)
    (report : ReportResultRequest) : Prop :=
  node.inFile report ∨ safe node report ∨
    ∃ t, (locs t).written = false ∧ report ∈ (locs t).reports

/-- What tasks wrote, enqueued or produced has its place. -/
structure AllPlaced (safe : Node → ReportResultRequest → Prop) (node : Node) (locs : Nat → Loc) :
    Prop where
  written : ∀ t, (locs t).written = true → ∀ report ∈ (locs t).reports,
    Placed safe node locs report
  enqueued : ∀ report ∈ node.enqueued, Placed safe node locs report
  produced : ∀ report ∈ node.produced, Placed safe node locs report

/-- What is safe stays so, whatever a step does. -/
structure Lasts (safe : Node → ReportResultRequest → Prop) : Prop where
  exec : ∀ loc op node report, safe node report → safe (exec loc op node).2 report
  fire : ∀ e sys sys' report, fire e sys = some sys' → safe sys.shared report →
    safe sys'.shared report

section
variable {safe : Node → ReportResultRequest → Prop} {node node' : Node} {locs locs' : Nat → Loc}

theorem Placed.mono {report : ReportResultRequest} (h : Placed safe node locs report)
    (hfile : node.inFile report → Placed safe node' locs' report)
    (hsafe : safe node report → safe node' report)
    (hhand : ∀ t, (locs t).written = false → report ∈ (locs t).reports →
      Placed safe node' locs' report) : Placed safe node' locs' report := by
  rcases h with hin | hin | ⟨t, hwritten, hmem⟩
  · exact hfile hin
  · exact .inr (.inl (hsafe hin))
  · exact hhand t hwritten hmem

/-- A step that keeps the file, and every task but one with the hands of that one. -/
theorem placed_of_kept {t : Nat} {loc' : Loc} {report : ReportResultRequest}
    (h : Placed safe node locs report) (hfile : node.inFile report → node'.inFile report)
    (hsafe : safe node report → safe node' report)
    (hhand : (locs t).written = false → report ∈ (locs t).reports →
      Placed safe node' (Function.update locs t loc') report) :
    Placed safe node' (Function.update locs t loc') report := by
  refine h.mono (fun hin => .inl (hfile hin)) hsafe fun t' hwritten hmem => ?_
  by_cases hne : t' = t
  · subst hne
    exact hhand hwritten hmem
  · refine .inr (.inr ⟨t', ?_, ?_⟩)
    · rw [Function.update_of_ne hne]
      exact hwritten
    · rw [Function.update_of_ne hne]
      exact hmem

theorem AllPlaced.step {t : Nat} {loc' : Loc} (h : AllPlaced safe node locs)
    (hkeep : ∀ report, Placed safe node locs report →
      Placed safe node' (Function.update locs t loc') report)
    (hwritten : loc'.written = true → ∀ report ∈ loc'.reports,
      Placed safe node' (Function.update locs t loc') report)
    (henqueued : ∀ report ∈ node'.enqueued, report ∈ node.enqueued ∨
      (locs t).written = true ∧ report ∈ (locs t).reports)
    (hproduced : node'.produced = node.produced) :
    AllPlaced safe node' (Function.update locs t loc') where
  written t' htrue report hmem := by
    by_cases hne : t' = t
    · subst hne
      rw [Function.update_self] at htrue hmem
      exact hwritten htrue report hmem
    · rw [Function.update_of_ne hne] at htrue hmem
      exact hkeep report (h.written t' htrue report hmem)
  enqueued report hmem := by
    rcases henqueued report hmem with hold | ⟨htrue, hhand⟩
    · exact hkeep report (h.enqueued report hold)
    · exact hkeep report (h.written t htrue report hhand)
  produced report hmem := hkeep report (h.produced report (hproduced ▸ hmem))

theorem mem_take_one {loc : Loc} {report : ReportResultRequest} (h : loc.hand.length ≤ 1)
    (hmem : report ∈ loc.reports) : report ∈ (loc.hand.take 1).map (·.report) := by
  rw [List.take_of_length_le h]
  exact hmem

theorem AllPlaced.exec {t : Nat} {op : Op} (hlasts : Lasts safe) (h : AllPlaced safe node locs)
    (hpre : mayPerform op (locs t))
    (hclear : op = .clearFile → ∀ report, node.inFile report → report ∈ (locs t).reports)
    (hunsent : op = .sessionOut → node.out = none → (locs t).hand.length ≤ 1)
    (hfailed : ∀ s report, op = .clientSend s report → ¬ node.takes s →
      (locs t).hand.length ≤ 1)
    (hsent : ∀ s report, op = .clientSend s report → node.takes s →
      safe (Spool.exec (locs t) op node).2 report) :
    AllPlaced safe (Spool.exec (locs t) op node).2
      (Function.update locs t (note op (Spool.exec (locs t) op node).1 (locs t))) := by
  have hsafe := fun report => hlasts.exec (locs t) op node report
  cases op with
  | sessionOut =>
    have hwritten : (note .sessionOut node.out (locs t)).written = false := by
      cases hout : node.out with
      | none => exact hpre
      | some tx => exact hpre
    refine h.step (fun report hplaced => placed_of_kept hplaced id (hsafe report) ?_)
      (fun htrue => ?_) (fun report hmem => .inl hmem) rfl
    · intro hfalse hmem
      refine .inr (.inr ⟨t, ?_, ?_⟩)
      · rw [Function.update_self]
        exact hwritten
      · rw [Function.update_self]
        show report ∈ (note .sessionOut node.out (locs t)).reports
        cases hout : node.out with
        | none => exact mem_take_one (hunsent rfl hout) hmem
        | some tx => exact hmem
    · rw [show (Spool.exec (locs t) .sessionOut node).1 = node.out from rfl, hwritten] at htrue
      cases htrue
  | clientSend s report =>
    obtain ⟨hfalse, item, rest, hhand, rfl⟩ := hpre
    have hsent' := hsent s item.report rfl
    have hfailed' := hfailed s item.report rfl
    simp only [Spool.exec, sendOn] at hsent' hsafe ⊢
    cases hlink : (node.channels s).link with
    | closed =>
      rw [hlink] at hsafe
      dsimp only at hsafe ⊢
      refine h.step (fun report hplaced => placed_of_kept hplaced id (hsafe report) ?_)
        (fun htrue => absurd (hfalse.symm.trans htrue) Bool.false_ne_true)
        (fun report hmem => .inl hmem) rfl
      intro _ hmem
      refine .inr (.inr ⟨t, ?_, ?_⟩)
      · rw [Function.update_self]
        exact hfalse
      · rw [Function.update_self]
        exact mem_take_one (hfailed' fun htakes => htakes hlink) hmem
    | _ =>
      rw [hlink] at hsafe hsent'
      dsimp only at hsafe hsent' ⊢
      refine h.step (fun report hplaced => placed_of_kept hplaced id (hsafe report) ?_)
        (fun htrue => absurd (hfalse.symm.trans htrue) Bool.false_ne_true)
        (fun report hmem => .inl hmem) rfl
      intro _ hmem
      rw [Loc.reports, hhand] at hmem
      rcases List.mem_cons.mp hmem with rfl | hmem
      · exact .inr (.inl (hsent' fun hclosed => by rw [hlink] at hclosed; cases hclosed))
      · refine .inr (.inr ⟨t, ?_, ?_⟩)
        · rw [Function.update_self]
          exact hfalse
        · rw [Function.update_self]
          simpa [note, Loc.reports, hhand] using hmem
  | appendLine item =>
    obtain ⟨hfalse, hhand⟩ := hpre
    have hfile : ∀ report, node.inFile report →
        (Spool.exec (locs t) (.appendLine item) node).2.inFile report :=
      fun report ⟨found, hmem, heq⟩ => ⟨found, List.mem_append_left _ hmem, heq⟩
    have hline : (Spool.exec (locs t) (.appendLine item) node).2.inFile item.report :=
      ⟨item, List.mem_append_right _ (List.mem_singleton_self _), rfl⟩
    refine h.step (fun report hplaced => placed_of_kept hplaced (hfile report) (hsafe report) ?_)
      (fun _ report hmem => ?_) (fun report hmem => .inl hmem) rfl
    · intro _ hmem
      rw [hhand] at hmem
      rw [List.mem_singleton.mp hmem]
      exact .inl hline
    · rw [show (note (.appendLine item) () (locs t)).reports = (locs t).reports from rfl, hhand]
        at hmem
      rw [List.mem_singleton.mp hmem]
      exact .inl hline
  | appendNewline =>
    have hfile : ∀ report, node.inFile report →
        (Spool.exec (locs t) .appendNewline node).2.inFile report :=
      fun report ⟨found, hmem, heq⟩ => ⟨found, List.mem_append_left _ hmem, heq⟩
    refine h.step (fun report hplaced => placed_of_kept hplaced (hfile report) (hsafe report) ?_)
      (fun htrue => (by cases htrue)) (fun report hmem => ?_) rfl
    · intro hfalse _
      rw [show (locs t).written = true from hpre] at hfalse
      cases hfalse
    · rcases List.mem_append.mp hmem with hmem | hmem
      · exact .inr ⟨hpre, hmem⟩
      · exact .inl hmem
  | pathExists =>
    have hsame : Function.update locs t (note .pathExists node.file.isSome (locs t)) = locs :=
      Function.update_eq_self t locs
    rw [show (Spool.exec (locs t) .pathExists node) = (node.file.isSome, node) from rfl, hsame]
    exact h
  | readFile =>
    obtain ⟨hfalse, hnone⟩ := hpre
    refine h.step (fun report hplaced => placed_of_kept hplaced id (hsafe report) ?_)
      (fun htrue => absurd (hfalse.symm.trans htrue) Bool.false_ne_true)
      (fun report hmem => .inl hmem) rfl
    intro _ hmem
    rw [Loc.reports, hnone] at hmem
    cases hmem
  | clearFile =>
    have hself : Function.update locs t (note .clearFile () (locs t)) = locs :=
      Function.update_eq_self t locs
    have hfalse : (locs t).written = false := hpre
    refine h.step (fun report hplaced => ?_)
      (fun htrue => absurd (hfalse.symm.trans htrue) Bool.false_ne_true)
      (fun report hmem => .inl hmem) rfl
    rw [show (Spool.exec (locs t) .clearFile node).1 = () from rfl, hself]
    -- What was in the file is in the hands of the flush.
    exact hplaced.mono
      (fun hin => .inr (.inr ⟨t, hfalse, hclear rfl report hin⟩)) (hsafe report)
      fun t' hunwritten hmem => .inr (.inr ⟨t', hunwritten, hmem⟩)

/-- What leaves the file and the tasks alone. -/
theorem AllPlaced.same (h : AllPlaced safe node locs) (hfile : node'.file = node.file)
    (henqueued : node'.enqueued = node.enqueued) (hproduced : node'.produced = node.produced)
    (hsafe : ∀ report, safe node report → safe node' report) : AllPlaced safe node' locs := by
  have hkeep : ∀ report, Placed safe node locs report → Placed safe node' locs report := by
    refine fun report hplaced => hplaced.mono (fun hin => .inl ?_) (hsafe report)
      fun t hwritten hmem => .inr (.inr ⟨t, hwritten, hmem⟩)
    rw [Node.inFile, Node.pieces, hfile]
    exact hin
  constructor
  · exact fun t htrue report hmem => hkeep report (h.written t htrue report hmem)
  · exact fun report hmem => hkeep report (h.enqueued report (henqueued ▸ hmem))
  · exact fun report hmem => hkeep report (h.produced report (hproduced ▸ hmem))

theorem AllPlaced.fire (hlasts : Lasts safe) {e : Event} {sys sys' : System}
    (h : AllPlaced safe sys.shared sys.loc) (hrest : ∀ t, sys.idle t = true → (sys.loc t).Rests)
    (hfire : Spool.fire e sys = some sys') : AllPlaced safe sys'.shared sys'.loc := by
  have hsafe := fun report => hlasts.fire e sys sys' report hfire
  cases e with
  | start t task =>
    simp only [Spool.fire] at hfire
    split at hfire
    · next hidle =>
      cases hfire
      rw [Machine.loc_update]
      have hkeep : ∀ report, Placed safe sys.shared sys.loc report →
          Placed safe { sys.shared with produced := task.produces ++ sys.shared.produced }
            (Function.update sys.loc t ⟨task.hand, false⟩) report := by
        refine fun report hplaced => placed_of_kept hplaced id (hsafe report) fun _ hmem => ?_
        rw [Loc.reports, (hrest t hidle).1] at hmem
        cases hmem
      constructor
      · intro t' htrue report hmem
        by_cases hne : t' = t
        · subst hne
          rw [Function.update_self] at htrue
          cases htrue
        · rw [Function.update_of_ne hne] at htrue hmem
          exact hkeep report (h.written t' htrue report hmem)
      · exact fun report hmem => hkeep report (h.enqueued report hmem)
      · intro report hmem
        rcases List.mem_append.mp hmem with hnew | hold
        · refine .inr (.inr ⟨t, ?_, ?_⟩)
          · rw [Function.update_self]
          · rw [Function.update_self]
            cases task with
            | send sent => exact hnew
            | flush => cases hnew
        · exact hkeep report (h.produced report hold)
    · cases hfire
  | handle s stores =>
    simp only [Spool.fire] at hfire
    split at hfire
    · cases hfire
    · cases hfire
      exact h.same rfl rfl rfl hsafe
  | _ =>
    cases hfire
    exact h.same rfl rfl rfl hsafe

/-- The run rule: nothing a run of careful steps produced or enqueued is lost before it is
safe. -/
theorem allPlaced_of_reaches {ok : System → Move Nat Unit Event → Prop} {sys : System}
    (hlasts : Lasts safe) (hcareful : ∀ sys m, ok sys m → Careful sys m)
    (hsent : ∀ sys t s report, ok sys (.act t ()) → sys.about t (.clientSend s report) →
      sys.shared.takes s →
        safe (Spool.exec (sys.loc t) (.clientSend s report) sys.shared).2 report)
    (h : Spool.node.Reaches ok initial sys) : AllPlaced safe sys.shared sys.loc := by
  have hobeys := node_obeys
  induction h with
  | refl =>
    constructor
    · intro t htrue
      cases htrue
    · intro report hmem
      cases hmem
    · intro report hmem
      cases hmem
  | @step sys sys' m hreach hok hstep ih =>
    have hsound := Machine.sound_of_reaches hobeys initial_sound hreach
    cases m with
    | act t c =>
      obtain ⟨op, next, reply, shared, hprog, hexec, rfl⟩ := Spool.node.act_eq_some.mp hstep
      have hexec : Spool.exec (sys.loc t) op sys.shared = (reply, shared) := Option.some.inj hexec
      obtain ⟨rfl, rfl⟩ : reply = (Spool.exec (sys.loc t) op sys.shared).1 ∧
          shared = (Spool.exec (sys.loc t) op sys.shared).2 := by rw [hexec]; exact ⟨rfl, rfl⟩
      have habout : sys.about t op := ⟨next, hprog⟩
      rw [Machine.after_shared, Machine.after_loc]
      have hstop := hcareful sys _ hok
      refine ih.exec hlasts (hsound.pre habout) ?_ ?_ ?_ ?_
      · rintro rfl
        exact hstop.clear t rfl habout
      · rintro rfl
        exact hstop.unsent t rfl habout
      · rintro s report rfl
        exact hstop.failed t s report rfl habout
      · rintro s report rfl
        exact hsent sys t s report hok habout
    | event e => exact ih.fire hlasts (fun t hidle => hsound.rest hidle) hstep

/-- What is in the hands of a task is in those of one at work. -/
theorem working_of_mem {ok : System → Move Nat Unit Event → Prop} {sys : System}
    (h : Spool.node.Reaches ok initial sys) {t : Nat} {report : ReportResultRequest}
    (hmem : report ∈ (sys.loc t).reports) : sys.idle t = false := by
  cases hidle : sys.idle t with
  | false => rfl
  | true =>
    have hrest : (sys.loc t).Rests :=
      (Machine.sound_of_reaches node_obeys initial_sound h).rest hidle
    rw [Loc.reports, hrest.1] at hmem
    cases hmem

end

/-! ## The spool -/

/-- Every report that was enqueued is in the file, was handed to a channel, or is in the
hands of a task that is at work on it. -/
def EnqueuedKept (sys : System) : Prop :=
  ∀ report ∈ sys.shared.enqueued, sys.shared.inFile report ∨ report ∈ sys.shared.handed ∨
    ∃ t, sys.idle t = false ∧ report ∈ (sys.loc t).reports

theorem handed_lasts : Lasts fun node report => report ∈ node.handed where
  exec loc op node report h := by
    cases op with
    | clientSend s sent =>
      simp only [Spool.exec, sendOn]
      cases (node.channels s).link with
      | closed => exact h
      | _ => exact List.mem_cons_of_mem _ h
    | _ => exact h
  fire e sys sys' report hfire h := by
    cases e with
    | start t task =>
      simp only [fire] at hfire
      split at hfire
      · cases hfire
        exact h
      · cases hfire
    | handle s stores =>
      simp only [fire] at hfire
      split at hfire
      · cases hfire
      · cases hfire
        exact h
    | _ =>
      cases hfire
      exact h

/-- Every report of the node is in the file, in the hands of a task, or accepted. -/
def ProducedRetained (sys : System) : Prop :=
  ∀ report ∈ sys.shared.produced, sys.shared.inFile report ∨
    report.runId ∈ sys.shared.accepted ∨ ∃ t, sys.idle t = false ∧ report ∈ (sys.loc t).reports

theorem accepted_lasts : Lasts fun node report => report.runId ∈ node.accepted where
  exec loc op node report h := by
    cases op <;> exact h
  fire e sys sys' report hfire h := by
    cases e with
    | start t task =>
      simp only [fire] at hfire
      split at hfire
      · cases hfire
        exact h
      · cases hfire
    | handle s stores =>
      simp only [fire] at hfire
      split at hfire
      · cases hfire
      · cases hfire
        dsimp only
        split
        · exact List.mem_cons_of_mem _ h
        · exact h
    | _ =>
      cases hfire
      exact h

/-- The other way round, the node has given up a report once a channel takes the last copy,
whatever the center says about it later. -/
theorem given_up_of_taken {sys sys' : System} {t : Nat} {s : SessionId}
    {report : ReportResultRequest} (hstep : node.step sys (.act t ()) = some sys')
    (habout : sys.about t (.clientSend s report)) (htakes : sys.shared.takes s)
    (hproduced : report ∈ sys.shared.produced) (haccepted : report.runId ∉ sys.shared.accepted)
    (hfile : ¬ sys.shared.inFile report) (hrest : report ∉ (sys.loc t).hand.tail.map (·.report))
    (hothers : ∀ t' ≠ t, report ∉ (sys.loc t').reports) : ¬ ProducedRetained sys' := by
  obtain ⟨next, habout⟩ := habout
  obtain ⟨op, next', reply, shared, hprog, hexec, rfl⟩ := node.act_eq_some.mp hstep
  rw [habout] at hprog
  cases hprog
  have hexec : exec (sys.loc t) (.clientSend s report) sys.shared = (reply, shared) :=
    Option.some.inj hexec
  have hkept : reply = true ∧ shared.file = sys.shared.file ∧
      shared.produced = sys.shared.produced ∧ shared.accepted = sys.shared.accepted := by
    simp only [exec, sendOn] at hexec
    cases hlink : (sys.shared.channels s).link with
    | closed => exact absurd hlink htakes
    | _ =>
      rw [hlink] at hexec
      cases hexec
      exact ⟨rfl, rfl, rfl, rfl⟩
  obtain ⟨rfl, hfile', hproduced', haccepted'⟩ := hkept
  intro hretained
  have hplace := hretained report (by rw [Machine.after_shared, hproduced']; exact hproduced)
  rw [Machine.after_shared, Machine.after_loc, Node.inFile, Node.pieces, hfile', haccepted']
    at hplace
  rcases hplace with hin | hin | ⟨t', -, hmem⟩
  · exact hfile hin
  · exact haccepted hin
  · by_cases hne : t' = t
    · rw [hne, Function.update_self] at hmem
      exact hrest hmem
    · rw [Function.update_of_ne hne] at hmem
      exact hothers t' hne hmem

/-! ## Runs on fixed inputs -/

/-- The next move is careful, and hands over only what is accepted if it has to. -/
def carefulNow (acceptedOnly : Bool) (sys : System) : Move Nat Unit Event → Bool
  | .act t _ =>
    match (sys.threads t).prog with
    | .perform .clearFile _ => sys.shared.pieces.all fun piece =>
      match piece with
      | .line item => item.report ∈ (sys.loc t).reports
      | .newline => true
    | .perform .sessionOut _ => sys.shared.out.isSome || (sys.loc t).hand.length ≤ 1
    | .perform (.clientSend s report) _ =>
      if (sys.shared.channels s).link = .closed then (sys.loc t).hand.length ≤ 1
      else !acceptedOnly || report.runId ∈ sys.shared.accepted
    | _ => true
  | .event _ => true

theorem careful_of_now {acceptedOnly : Bool} (sys : System) (m : Move Nat Unit Event)
    (h : carefulNow acceptedOnly sys m = true) : Careful sys m := by
  constructor
  · rintro t rfl ⟨next, hprog⟩ report ⟨item, hline, rfl⟩
    rw [carefulNow, hprog] at h
    exact of_decide_eq_true (List.all_eq_true.mp h _ hline)
  · rintro t rfl ⟨next, hprog⟩ hout
    rw [carefulNow, hprog, hout] at h
    exact of_decide_eq_true h
  · rintro t s report rfl ⟨next, hprog⟩ htakes
    rw [carefulNow, hprog] at h
    dsimp only at h
    rw [if_pos (Classical.not_not.mp htakes)] at h
    exact of_decide_eq_true h

theorem takesAccepted_of_now (sys : System) (m : Move Nat Unit Event)
    (h : carefulNow true sys m = true) : TakesAccepted sys m := by
  rintro t s report rfl ⟨next, hprog⟩ htakes
  rw [carefulNow, hprog] at h
  dsimp only at h
  rw [if_neg htakes] at h
  simpa using h

def sampleReport (runId : RunId) : ReportResultRequest := ⟨"node-1", runId, "cpu", "ok", "null", 0⟩

def acts (n : Nat) : List (Move Nat Unit Event) := List.replicate n (.act 0 ())

/-- A report without a session goes to the file. -/
def spooled (runId : RunId) : List (Move Nat Unit Event) :=
  .event (.start 0 (.send (sampleReport runId))) :: acts 3

/-- The move is of the first task, or of none. -/
def byFirst : Move Nat Unit Event → Bool
  | .act t _ => t == 0
  | .event (.start t _) => t == 0
  | .event _ => true

theorem others_of_step {sys sys' : System} {m : Move Nat Unit Event} (hfirst : byFirst m = true)
    (h : node.step sys m = some sys') {t : Nat} (ht : t ≠ 0) :
    sys'.threads t = sys.threads t := by
  cases m with
  | act t' c =>
    obtain ⟨op, next, reply, shared, -, -, rfl⟩ := node.act_eq_some.mp h
    rw [byFirst, beq_iff_eq] at hfirst
    exact Function.update_of_ne (hfirst ▸ ht) _ _
  | event e =>
    cases e with
    | start t' task =>
      simp only [Machine.step, node, fire] at h
      split at h
      · cases h
        rw [byFirst, beq_iff_eq] at hfirst
        exact Function.update_of_ne (hfirst ▸ ht) _ _
      · cases h
    | handle s stores =>
      simp only [Machine.step, node, fire] at h
      split at h
      · cases h
      · cases h
        rfl
    | _ =>
      cases h
      rfl

theorem others_of_run {sys sys' : System} {ms : List (Move Nat Unit Event)}
    (h : node.run (fun _ => byFirst) sys ms = some sys') {t : Nat} (ht : t ≠ 0) :
    sys'.threads t = sys.threads t := by
  induction ms generalizing sys with
  | nil =>
    cases h
    rfl
  | cons m ms ih =>
    rw [Machine.run] at h
    split at h
    · next hfirst =>
      obtain ⟨mid, hstep, hrest⟩ := Option.bind_eq_some_iff.mp h
      exact (ih hrest).trans (others_of_step hfirst hstep ht)
    · cases h

/-- After a run of the first task, which is done, no task has anything in its hands. -/
theorem no_hands {sys : System} {ms : List (Move Nat Unit Event)}
    (h : node.run (fun _ => byFirst) initial ms = some sys) (hidle : sys.idle 0 = true) (t : Nat) :
    sys.idle t = true := by
  by_cases ht : t = 0
  · rw [ht]
    exact hidle
  · rw [Sys.idle, others_of_run h ht]
    rfl

/-- The file holds no line of the run. -/
def lacks (runId : RunId) (node : Node) : Bool :=
  node.pieces.all fun piece =>
    match piece with
    | .line item => item.report.runId ≠ runId
    | .newline => true

theorem not_inFile {report : ReportResultRequest} {node : Node}
    (h : lacks report.runId node = true) : ¬ node.inFile report := by
  rintro ⟨item, hline, rfl⟩
  exact of_decide_eq_true (List.all_eq_true.mp h _ hline) rfl

/-- The channel closes once a flush has taken two reports out of the file. -/
def stoppedMoves : List (Move Nat Unit Event) :=
  spooled "a" ++ spooled "b" ++ .event (.connect 0) :: .event (.start 0 .flush) :: acts 4 ++
    .event (.close 0) :: acts 4

/-- The stream breaks with a report in its channel. -/
def brokenMoves : List (Move Nat Unit Event) :=
  .event (.connect 0) :: .event (.start 0 (.send (sampleReport "a"))) :: acts 2 ++
    [.event (.lose 0 0), .event .hangUp]

end Novbot.Spool
