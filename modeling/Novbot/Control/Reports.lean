import Novbot.Control.Tables

/-!
# Installed-skills reports

A report replaces the rows of its node unless a stored row is of a higher
generation.  So a report with skills raises what the center recorded, and every
lower report after it is dropped.

A report without skills leaves no row, and with the rows goes the generation
they were of.  `lasting` excludes a report that does so.
-/

namespace Novbot.Control

open Concurrent

variable {setup : Setup} {sys sys' : System} {w w' : World} {locs : Tid → Loc} {t : Tid}
  {op : Op} {c : Choice} {db db' : Db} {report : SkillStateReport}

/-- `MAX(applied_generation)` of the node's rows, 0 without rows. -/
def Db.appliedGeneration (db : Db) (nodeId : NodeId) : Int :=
  ((db.actual nodeId).map (·.appliedGeneration)).max?.getD 0

/-- The report is not older than a stored row, and its rows can be written. -/
def Db.accepts (db : Db) (report : SkillStateReport) : Prop :=
  Db.maxGeneration (db.actual report.nodeId) ≤ report.appliedGeneration ∧
    (db.applyReport report).isSome = true

/-- The move applies the report, and commits. -/
def Accepts (sys : System) (m : Move Tid Choice Event) (report : SkillStateReport) : Prop :=
  ∃ t c, m = .act t c ∧ sys.about t (.db (.applyReport report)) ∧ c.fail = false ∧
    sys.shared.db.accepts report

/-- The next move keeps the recorded generation of every node, and a report lower
than an accepted one of its node leaves the node's rows alone. -/
structure ReportsKept (past : List (System × Move Tid Choice Event)) (sys : System)
    (m : Move Tid Choice Event) (sys' : System) : Prop where
  generation : ∀ nodeId,
    sys.shared.db.appliedGeneration nodeId ≤ sys'.shared.db.appliedGeneration nodeId
  rows : ∀ t c report, m = .act t c → sys.about t (.db (.applyReport report)) →
    ∀ p ∈ past, ∀ old, Accepts p.1 p.2 old → old.nodeId = report.nodeId →
      report.appliedGeneration < old.appliedGeneration →
      sys'.shared.db.actual report.nodeId = sys.shared.db.actual report.nodeId

/-- A report without skills that is not dropped is of generation 0 at most. -/
def lasting (sys : System) : Move Tid Choice Event → Prop
  | .act t _ => ∀ report, sys.about t (.db (.applyReport report)) → report.skills = [] →
    report.appliedGeneration ≤ 0 ∨
      report.appliedGeneration < Db.maxGeneration (sys.shared.db.actual report.nodeId)
  | .event _ => True

/-! ## The rows of a node -/

/-- The rows of one report: all of its generation, which is not negative. -/
def OneReport (rows : List ActualRow) : Prop :=
  ∃ g, 0 ≤ g ∧ ∀ row ∈ rows, row.appliedGeneration = g

theorem foldl_max_eq {rows : List ActualRow} {g : Int}
    (hrows : ∀ row ∈ rows, row.appliedGeneration = g) :
    rows.foldl (fun m row => max m row.appliedGeneration) g = g := by
  induction rows with
  | nil => rfl
  | cons row rows ih =>
    rw [List.foldl_cons, hrows row List.mem_cons_self, Int.max_self]
    exact ih fun r hr => hrows r (.tail _ hr)

/-- For the rows of one report the two readings of the generation agree. -/
theorem OneReport.generation_eq {nodeId : NodeId} (h : OneReport (db.actual nodeId)) :
    Db.maxGeneration (db.actual nodeId) = db.appliedGeneration nodeId ∧
      0 ≤ db.appliedGeneration nodeId := by
  obtain ⟨g, hg, hrows⟩ := h
  unfold Db.appliedGeneration Db.maxGeneration
  cases hactual : db.actual nodeId with
  | nil => exact ⟨rfl, Int.le_refl _⟩
  | cons row rows =>
    rw [hactual] at hrows
    have hrow := hrows row List.mem_cons_self
    have hrest : ∀ r ∈ rows, r.appliedGeneration = g := fun r hr => hrows r (.tail _ hr)
    have hmax : ((row :: rows).map (·.appliedGeneration)).max?.getD 0 = g := by
      rw [List.map_cons, List.max?_cons', List.foldl_map, hrow, Option.getD_some]
      exact foldl_max_eq hrest
    rw [hmax, List.foldl_cons, hrow, Int.max_eq_right hg]
    exact ⟨foldl_max_eq hrest, hg⟩

theorem generation_of_rows {skills : List InstalledSkill} {g : Int} {nodeId : NodeId}
    (hactual : db.actual nodeId = skills.map fun skill => ⟨skill, g⟩) (hg : 0 ≤ g)
    (hskills : skills = [] → g ≤ 0) : db.appliedGeneration nodeId = g := by
  unfold Db.appliedGeneration
  rw [hactual]
  cases skills with
  | nil => exact Int.le_antisymm hg (hskills rfl)
  | cons skill skills =>
    rw [List.map_map, List.map_cons, List.max?_cons', Option.getD_some, List.foldl_map]
    have h := @foldl_max_eq (skills.map fun skill => ⟨skill, g⟩) g ?_
    · rwa [List.foldl_map] at h
    · intro row hrow
      obtain ⟨_, -, rfl⟩ := List.mem_map.mp hrow
      rfl

/-! ## What a move does to the rows -/

theorem applyReport_cases (h : db.applyReport report = some db') :
    (db' = db ∧ report.appliedGeneration < Db.maxGeneration (db.actual report.nodeId)) ∨
      (Db.maxGeneration (db.actual report.nodeId) ≤ report.appliedGeneration ∧
        db'.actual = Function.update db.actual report.nodeId
          (report.skills.map fun skill => ⟨skill, report.appliedGeneration⟩)) := by
  unfold Db.applyReport at h
  split at h
  · next hold =>
    cases h
    exact .inl ⟨rfl, hold⟩
  · next hnew =>
    split at h
    · cases h
    · split at h
      · cases h
      · cases h
        exact .inr ⟨Int.not_lt.mp hnew, rfl⟩

theorem Db.insertPlanned_actual (db : Db) (specId paramsJson : String)
    (planned : List (NodeId × RunId)) :
    (db.insertPlanned specId paramsJson planned).actual = db.actual := by
  unfold insertPlanned
  induction planned generalizing db with
  | nil => rfl
  | cons run planned ih => exact ih (db.insertPending run.1 run.2 specId paramsJson)

/-- The operation applies the report and commits. -/
def Op.accepts (op : Op) (c : Choice) (db : Db) (report : SkillStateReport) : Prop :=
  op = .db (.applyReport report) ∧ c.fail = false ∧ db.accepts report

theorem attempt_actual {change : Option Db}
    (hchange : ∀ db', change = some db' → db'.actual = db.actual) :
    (attempt c db change).2.actual = db.actual := by
  unfold attempt
  split
  · exact hchange _ rfl
  · rfl

theorem execDb_actual (op : DbOp) {clock : Nat} (hop : ∀ report, op ≠ .applyReport report) :
    (execDb setup c clock op db).2.actual = db.actual := by
  cases op with
  | applyReport report => exact absurd rfl (hop report)
  | registerNode req =>
    simp only [execDb]
    split <;> rfl
  | insertResult row =>
    refine attempt_actual fun db' h => ?_
    unfold Db.insertResult at h
    split at h <;> cases h
    rfl
  | claimPendingDispatches nodeId cutoff =>
    simp only [execDb]
    split <;> rfl
  | enqueueDispatch nodeId runId specId paramsJson =>
    refine attempt_actual fun db' h => ?_
    unfold Db.enqueueDispatch at h
    split at h <;> cases h
    rfl
  | commitDispatch specId paramsJson planned =>
    refine attempt_actual fun db' h => ?_
    unfold Db.commitDispatch at h
    split at h <;> cases h
    exact Db.insertPlanned_actual db specId paramsJson planned
  | ackPendingDispatch nodeId runId | requeuePendingDispatches ids
  | requeueInFlightForNode nodeId | markInFlight nodeId runId =>
    refine attempt_actual fun db' h => ?_
    cases h
    rfl
  | _ => rfl

/-- An operation leaves the rows alone, or a report that it accepts replaces the
rows of its node. -/
theorem exec_actual {reply : op.Reply} (h : exec setup t locs op c w = some (reply, w')) :
    (w'.db.actual = w.db.actual ∧ ∀ report, ¬ op.accepts c w.db report) ∨
      ∃ report, op.accepts c w.db report ∧ w'.db.actual = Function.update w.db.actual report.nodeId
        (report.skills.map fun skill => ⟨skill, report.appliedGeneration⟩) := by
  cases op with
  | db op =>
    simp only [exec, Option.some.injEq, Prod.mk.injEq] at h
    obtain ⟨-, rfl⟩ := h
    cases op with
    | applyReport report =>
      cases hfail : c.fail with
      | true =>
        refine .inl ⟨by simp [execDb, attempt, hfail], ?_⟩
        rintro report' ⟨-, hno, -⟩
        rw [hfail] at hno
        cases hno
      | false =>
        cases happly : w.db.applyReport report with
        | none =>
          refine .inl ⟨by simp [execDb, attempt, hfail, happly], ?_⟩
          rintro report' ⟨heq, -, -, hsome⟩
          cases heq
          rw [happly] at hsome
          cases hsome
        | some db' =>
          have hdb : (execDb setup c w.clock (.applyReport report) w.db).2 = db' := by
            simp [execDb, attempt, hfail, happly]
          show (_ = _ ∧ _) ∨ ∃ _, _ ∧ Db.actual (execDb setup c w.clock (.applyReport report) w.db).2 = _
          rw [hdb]
          rcases applyReport_cases happly with ⟨rfl, hold⟩ | ⟨hnew, hactual⟩
          · refine .inl ⟨hdb ▸ rfl, ?_⟩
            rintro report' ⟨heq, -, hnew, -⟩
            cases heq
            exact absurd hold (Int.not_lt.mpr hnew)
          · exact .inr ⟨report, ⟨rfl, hfail, hnew, happly ▸ rfl⟩, hactual⟩
    | _ => exact .inl ⟨execDb_actual _ (by simp), fun report h => (by cases h.1)⟩
  | _ => exact .inl ⟨by rw [(exec_frame h).2.1 rfl], fun report h => (by cases h.1)⟩

theorem Fired.actual {e : Event} (h : Fired setup sys e w' locs) :
    w'.db.actual = sys.shared.db.actual := by
  cases h <;> rfl

/-! ## The invariant -/

/-- The rows of a node are of one report, no lower than any that was accepted. -/
def Recorded (past : List (System × Move Tid Choice Event)) (w : World) : Prop :=
  ∀ nodeId, OneReport (w.db.actual nodeId) ∧
    ∀ p ∈ past, ∀ old, Accepts p.1 p.2 old → old.nodeId = nodeId →
      old.appliedGeneration ≤ w.db.appliedGeneration nodeId

variable {past : List (System × Move Tid Choice Event)} {m : Move Tid Choice Event}

/-- A report of the node that the move applies is no lower than the record. -/
theorem Recorded.not_dropped (h : Recorded past sys.shared)
    (hnew : Db.maxGeneration (sys.shared.db.actual report.nodeId) ≤ report.appliedGeneration) :
    sys.shared.db.appliedGeneration report.nodeId ≤ report.appliedGeneration ∧
      0 ≤ report.appliedGeneration := by
  obtain ⟨heq, hnonneg⟩ := (h report.nodeId).1.generation_eq
  rw [heq] at hnew
  exact ⟨hnew, Int.le_trans hnonneg hnew⟩

/-- Rows that stay keep the record, when the move accepts nothing. -/
theorem Recorded.same (h : Recorded past sys.shared) (hsame : w'.db.actual = sys.shared.db.actual)
    (hm : ∀ old, Accepts sys m old → old.appliedGeneration ≤ w'.db.appliedGeneration old.nodeId) :
    Recorded ((sys, m) :: past) w' := by
  have hgen : ∀ n, w'.db.appliedGeneration n = sys.shared.db.appliedGeneration n := fun n => by
    rw [Db.appliedGeneration, Db.appliedGeneration, hsame]
  intro nodeId
  refine ⟨hsame ▸ (h nodeId).1, fun p hp old hold hnode => ?_⟩
  rcases List.mem_cons.mp hp with rfl | hp
  · exact hnode ▸ hm old hold
  · rw [hgen]
    exact (h nodeId).2 p hp old hold hnode

theorem about_inj {op' : Op} (h : sys.about t op) (h' : sys.about t op') : op = op' := by
  obtain ⟨next, hp⟩ := h
  obtain ⟨next', hp'⟩ := h'
  rw [hp] at hp'
  cases hp'
  rfl

theorem accepts_act (hop : sys.about t op) :
    Accepts sys (.act t c) report ↔ op.accepts c sys.shared.db report := by
  constructor
  · rintro ⟨t', c', hm, hop', hfail, haccepts⟩
    cases hm
    exact ⟨about_inj hop hop', hfail, haccepts⟩
  · rintro ⟨rfl, hfail, haccepts⟩
    exact ⟨t, c, rfl, hop, hfail, haccepts⟩

/-- What one operation does to the record. -/
theorem Recorded.act {reply : op.Reply} (h : Recorded past sys.shared)
    (hok : lasting sys (.act t c)) (hop : sys.about t op)
    (he : exec setup t sys.loc op c sys.shared = some (reply, w')) :
    Recorded ((sys, .act t c) :: past) w' ∧ ∀ nodeId,
      sys.shared.db.appliedGeneration nodeId ≤ w'.db.appliedGeneration nodeId := by
  rcases exec_actual he with ⟨hsame, hnone⟩ | ⟨report, haccepts, hactual⟩
  · refine ⟨h.same hsame fun old hold => absurd ((accepts_act hop).mp hold) (hnone old), ?_⟩
    intro nodeId
    exact Int.le_of_eq (by rw [Db.appliedGeneration, Db.appliedGeneration, hsame])
  · obtain ⟨rfl, hfail, hnew, hsome⟩ := haccepts
    obtain ⟨hrecord, hnonneg⟩ := h.not_dropped hnew
    have hself : w'.db.appliedGeneration report.nodeId = report.appliedGeneration := by
      refine @generation_of_rows _ report.skills _ _ ?_ hnonneg fun hskills => ?_
      · rw [hactual, Function.update_self]
      · exact (hok report hop hskills).resolve_right (Int.not_lt.mpr hnew)
    have hother : ∀ n, n ≠ report.nodeId → w'.db.actual n = sys.shared.db.actual n := by
      intro n hn
      rw [hactual, Function.update_of_ne hn]
    constructor
    · intro n
      by_cases hn : n = report.nodeId
      · subst hn
        refine ⟨⟨report.appliedGeneration, hnonneg, fun row hrow => ?_⟩, ?_⟩
        · rw [hactual, Function.update_self] at hrow
          obtain ⟨skill, -, rfl⟩ := List.mem_map.mp hrow
          rfl
        · intro p hp old hold hnode
          rw [hself]
          rcases List.mem_cons.mp hp with rfl | hp
          · obtain ⟨hreport, -⟩ := (accepts_act hop).mp hold
            cases hreport
            exact Int.le_refl _
          · exact Int.le_trans ((h report.nodeId).2 p hp old hold hnode) hrecord
      · refine ⟨hother n hn ▸ (h n).1, fun p hp old hold hnode => ?_⟩
        rw [Db.appliedGeneration, hother n hn]
        rcases List.mem_cons.mp hp with rfl | hp
        · obtain ⟨hreport, -⟩ := (accepts_act hop).mp hold
          cases hreport
          exact absurd hnode.symm hn
        · exact (h n).2 p hp old hold hnode
    · intro n
      by_cases hn : n = report.nodeId
      · subst hn
        rw [hself]
        exact hrecord
      · exact Int.le_of_eq (by rw [Db.appliedGeneration, Db.appliedGeneration, hother n hn])

theorem Recorded.event {e : Event} (h : Recorded past sys.shared)
    (he : Fired setup sys e w' locs) : Recorded ((sys, .event e) :: past) w' := by
  refine h.same he.actual ?_
  rintro old ⟨t, c, hm, -⟩
  cases hm

theorem recorded_of_along
    (h : (control setup).Along lasting (initial setup) past sys) : Recorded past sys.shared := by
  refine h.invariant (P := fun past w _ => Recorded past w) control_obeys control_sound ?_ ?_ ?_
  · exact fun _ => ⟨⟨0, Int.le_refl 0, fun _ h => (by cases h)⟩, fun _ h => (by cases h)⟩
  · exact fun past sys t op c reply w' _ hrec hok hop _ _ he => (hrec.act hok hop he).1
  · intro past sys e sys' halong hrec _ hfire
    exact hrec.event (fire_cases (sound_of_reaches halong.reaches) hfire)

/-- A report that is lower than an accepted one of its node changes no rows. -/
theorem Recorded.lower {reply : op.Reply} (h : Recorded past sys.shared)
    (hop : sys.about t (.db (.applyReport report))) (hsame : sys.about t op)
    (he : exec setup t sys.loc op c sys.shared = some (reply, w'))
    {p : System × Move Tid Choice Event} (hp : p ∈ past) {old : SkillStateReport}
    (hold : Accepts p.1 p.2 old) (hnode : old.nodeId = report.nodeId)
    (hlower : report.appliedGeneration < old.appliedGeneration) :
    w'.db.actual report.nodeId = sys.shared.db.actual report.nodeId := by
  have hrecord := (h report.nodeId).2 p hp old hold hnode
  rcases exec_actual he with ⟨hactual, -⟩ | ⟨report', ⟨rfl, -, hnew, -⟩, -⟩
  · rw [hactual]
  · cases about_inj hop hsame
    obtain ⟨hle, -⟩ := h.not_dropped hnew
    exact absurd (Int.lt_of_lt_of_le hlower (Int.le_trans hrecord hle)) (Int.lt_irrefl _)

/-- In a run of lasting steps every next step keeps the reports. -/
theorem reports_kept {sys' : System} (h : (control setup).Along lasting (initial setup) past sys)
    (hok : lasting sys m) (hstep : (control setup).step sys m = some sys') :
    ReportsKept past sys m sys' := by
  have hrec := recorded_of_along h
  cases m with
  | act t c =>
    obtain ⟨op, next, reply, w', hp, he, rfl⟩ := (control setup).act_eq_some.mp hstep
    refine ⟨(hrec.act hok ⟨next, hp⟩ he).2, ?_⟩
    intro t' c' report hm hop p hpast old hold hnode hlower
    cases hm
    exact hrec.lower hop ⟨next, hp⟩ he hpast hold hnode hlower
  | event e =>
    have hactual := (fire_cases (sound_of_reaches h.reaches) hstep).actual
    refine ⟨fun nodeId => ?_, fun t c report hm => (by cases hm)⟩
    exact Int.le_of_eq (by rw [Db.appliedGeneration, Db.appliedGeneration, hactual])

/-! ## Runs -/

/-- A report of the node with the skill, or without any. -/
def sampleReport (generation : Int) (skills : List String) : ClientBody :=
  .skillState ⟨"node", generation,
    skills.map fun name => ⟨name, "1.0.0", "", "installed", "", "", 1, []⟩⟩

/-- A registered node reports a skill of generation 5, and sends a second report. -/
def reportTwice (second : ClientBody) : List (Move Tid Choice Event) :=
  [.event (.connect 0)] ++ clientTurn 0 (registration "node") 7 ++
  clientTurn 0 (sampleReport 5 ["disk"]) 2 ++ clientTurn 0 second 0

/-- Reports with skills only. -/
def Op.reportsNone : Op → Bool
  | .db (.applyReport report) => report.skills.isEmpty
  | _ => false

def filled (sys : System) : Move Tid Choice Event → Bool
  | .act t _ => !nextIs Op.reportsNone sys t
  | .event _ => true

theorem lasting_of_filled (h : filled sys m = true) : lasting sys m := by
  unfold lasting
  split
  · intro report hop hskills
    simp [filled, nextIs_of_about hop, Op.reportsNone, hskills] at h
  · trivial

/-- The session applies the report in hand. -/
def applyNext : Move Tid Choice Event := .act (.session 0) .plain

theorem reports_kept_sample :
    ∃ past, ∃ sys sys' : System, (control sampleSetup).step sys applyNext = some sys' ∧
      sys.shared.db.appliedGeneration "node" = 5 ∧ ReportsKept past sys applyNext sys' := by
  have hrun : ((control sampleSetup).run filled (initial sampleSetup)
      (reportTwice (sampleReport 3 ["disk"]))).any (fun sys =>
        sys.shared.db.appliedGeneration "node" = 5 && filled sys applyNext &&
          ((control sampleSetup).step sys applyNext).isSome) = true := by
    decide +kernel
  obtain ⟨sys, hreach, hcheck⟩ := Machine.exists_reaches_of_run (fun _ _ => lasting_of_filled) hrun
  obtain ⟨past, halong⟩ := hreach.along
  simp only [Bool.and_eq_true, decide_eq_true_eq] at hcheck
  obtain ⟨⟨hgeneration, hfilled⟩, hstep⟩ := hcheck
  obtain ⟨sys', hsys'⟩ := Option.isSome_iff_exists.mp hstep
  exact ⟨past, sys, sys', hsys', hgeneration,
    reports_kept halong (lasting_of_filled hfilled) hsys'⟩

theorem empty_report_forgets_generation :
    ∃ past, ∃ sys sys' : System,
      (control sampleSetup).Along (fun _ _ => True) (initial sampleSetup) past sys ∧
        (control sampleSetup).step sys applyNext = some sys' ∧
        ¬ ReportsKept past sys applyNext sys' := by
  have hrun : ((control sampleSetup).run anyMove (initial sampleSetup)
      (reportTwice (sampleReport 6 []))).any (fun sys =>
        sys.shared.db.appliedGeneration "node" = 5 &&
          ((control sampleSetup).step sys applyNext).any
            (fun sys' => sys'.shared.db.appliedGeneration "node" = 0)) = true := by
    decide +kernel
  obtain ⟨sys, hreach, hcheck⟩ := Machine.exists_reaches_of_run (fun _ _ _ => trivial) hrun
  obtain ⟨past, halong⟩ := hreach.along
  simp only [Bool.and_eq_true, decide_eq_true_eq] at hcheck
  obtain ⟨hbefore, hafter⟩ := hcheck
  obtain ⟨sys', hsys', hforgot⟩ := (Option.any_eq_true _ _).mp hafter
  refine ⟨past, sys, sys', halong, hsys', fun hkept => ?_⟩
  have hle := hkept.generation "node"
  rw [hbefore, of_decide_eq_true hforgot] at hle
  exact absurd hle (by decide)

end Novbot.Control
