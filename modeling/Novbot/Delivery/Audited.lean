import Novbot.Delivery.Shown
import Novbot.Skills.Reported

/-!
# The audit trail of the reports

`apply_report` appends an event for each skill that it stores as installed or failed, unless the
row before it said the same.  So the last of these events for a skill of a node describes the row
that is stored, however reports are repeated, delayed or dropped (`trail_describes`), and a report
that comes again appends nothing.
-/

namespace Novbot.Delivery

open Novbot.Control (NodeId InstalledSkill SkillStateReport ActualRow Db)
open Novbot.Skills (NodeAudit)

/-! ## Events -/

/-- The action of the event for a state. -/
def auditAction (state : String) : Option String :=
  if state = "installed" then some "skill.installed"
  else if state = "failed" then some "skill.failed"
  else none

/-- What two reports of a skill are compared by. -/
structure Summary where
  version : String
  sha256 : String
  state : String
  reason : String
  deriving DecidableEq

def summary (skill : InstalledSkill) : Summary :=
  ⟨skill.version, Control.Hub.normalSha skill.sha256, skill.state, skill.reason⟩

def auditDetail (generation : Int) (skill : InstalledSkill) : Json :=
  .obj [("version", .str skill.version), ("sha256", .str (Control.Hub.normalSha skill.sha256)),
    ("state", .str skill.state), ("reason", .str skill.reason),
    ("applied_generation", .int generation), ("attempts", .int skill.attempts)]

/-- `maybe_audit`. -/
def maybeAudit (nodeId : NodeId) (generation : Int) (skill : InstalledSkill) (prior : Option Summary) :
    Option NodeAudit :=
  match auditAction skill.state with
  | none => none
  | some action =>
    if prior = some (summary skill) then none
    else some ⟨nodeId, action, skill.name, auditDetail generation skill⟩

/-! ## The tables -/

structure Trail where
  db : Db
  audit : List NodeAudit

def Trail.prior (trail : Trail) (nodeId : NodeId) (name : String) : Option Summary :=
  (actualFor trail.db nodeId name).map fun row => summary row.skill

/-- The events of an accepted report. -/
def Trail.events (trail : Trail) (report : SkillStateReport) : List NodeAudit :=
  report.skills.filterMap fun skill =>
    maybeAudit report.nodeId report.appliedGeneration skill (trail.prior report.nodeId skill.name)

/-- `apply_report` with its events.  One that fails is rolled back. -/
def Trail.applyReport (trail : Trail) (report : SkillStateReport) : Option Trail :=
  if report.appliedGeneration < Db.maxGeneration (trail.db.actual report.nodeId) then some trail
  else (trail.db.applyReport report).map fun db => ⟨db, trail.audit ++ trail.events report⟩

inductive Entry where
  /-- A report, and whether another statement of its transaction fails. -/
  | report (report : SkillStateReport) (fails : Bool)
  /-- Another transaction appends an event of its own. -/
  | other (event : NodeAudit) (apart : ∀ state, auditAction state ≠ some event.action)

def Trail.step (trail : Trail) : Entry → Trail
  | .report report fails => if fails then trail else (trail.applyReport report).getD trail
  | .other event _ => { trail with audit := trail.audit ++ [event] }

def Trail.start (nodes : List NodeId) : Trail := ⟨{ Db.empty with nodes }, []⟩

def Trail.run (trail : Trail) (entries : List Entry) : Trail := entries.foldl Trail.step trail

/-! ## The last event of a skill -/

/-- The event says that the node reported the skill. -/
def about (nodeId : NodeId) (name : String) (event : NodeAudit) : Bool :=
  event.nodeId = nodeId && event.targetId = name &&
    (event.action = "skill.installed" || event.action = "skill.failed")

def lastEvent (audit : List NodeAudit) (nodeId : NodeId) (name : String) : Option NodeAudit :=
  (audit.filter (about nodeId name)).getLast?

/-- The last event for the skill says the same. -/
def Described (audit : List NodeAudit) (nodeId : NodeId) (skill : InstalledSkill) : Prop :=
  ∀ action, auditAction skill.state = some action → ∃ generation reported,
    summary reported = summary skill ∧ lastEvent audit nodeId skill.name =
      some ⟨nodeId, action, skill.name, auditDetail generation reported⟩

theorem auditAction_cases {state action : String} (h : auditAction state = some action) :
    action = "skill.installed" ∨ action = "skill.failed" := by
  unfold auditAction at h
  split at h
  · exact .inl (Option.some.inj h).symm
  · split at h
    · exact .inr (Option.some.inj h).symm
    · cases h

theorem auditAction_of_action {action : String}
    (h : action = "skill.installed" ∨ action = "skill.failed") :
    ∃ state, auditAction state = some action := by
  rcases h with rfl | rfl
  · exact ⟨"installed", rfl⟩
  · exact ⟨"failed", rfl⟩

theorem lastEvent_append (audit later : List NodeAudit) (nodeId : NodeId) (name : String) :
    lastEvent (audit ++ later) nodeId name =
      (lastEvent later nodeId name).or (lastEvent audit nodeId name) := by
  rw [lastEvent, List.filter_append, List.getLast?_append]
  rfl

theorem lastEvent_none {later : List NodeAudit} {nodeId : NodeId} {name : String}
    (h : ∀ event ∈ later, about nodeId name event = false) : lastEvent later nodeId name = none := by
  have hfilter : later.filter (about nodeId name) = [] := by
    rw [List.filter_eq_nil_iff]
    intro event hevent
    rw [h event hevent]
    exact Bool.false_ne_true
  rw [lastEvent, hfilter]
  rfl

theorem maybeAudit_some {nodeId : NodeId} {generation : Int} {skill : InstalledSkill}
    {prior : Option Summary} {event : NodeAudit}
    (h : maybeAudit nodeId generation skill prior = some event) :
    ∃ action, auditAction skill.state = some action ∧ prior ≠ some (summary skill) ∧
      event = ⟨nodeId, action, skill.name, auditDetail generation skill⟩ := by
  unfold maybeAudit at h
  split at h
  · cases h
  · next action haction =>
    split at h
    · cases h
    · next hprior => exact ⟨action, haction, hprior, (Option.some.inj h).symm⟩

section

variable {nodeId : NodeId} {generation : Int} {skills : List InstalledSkill}
  {prior : InstalledSkill → Option Summary}

theorem about_event {action name other : String} {detail : Json} (hother : other ≠ name) :
    about nodeId name ⟨nodeId, action, other, detail⟩ = false := by
  simp [about, hother]

theorem about_own {action name : String} {detail : Json}
    (haction : action = "skill.installed" ∨ action = "skill.failed") :
    about nodeId name ⟨nodeId, action, name, detail⟩ = true := by
  simpa [about] using haction

/-- A report has one event at most for each of its skills. -/
theorem lastEvent_events (hnames : (skills.map (·.name)).Nodup) {skill : InstalledSkill}
    (hskill : skill ∈ skills) :
    lastEvent (skills.filterMap fun skill => maybeAudit nodeId generation skill (prior skill)) nodeId
      skill.name = maybeAudit nodeId generation skill (prior skill) := by
  induction skills with
  | nil => cases hskill
  | cons first skills ih =>
    obtain ⟨hfresh, hrest⟩ := List.nodup_cons.mp hnames
    have hsplit : (first :: skills).filterMap
          (fun skill => maybeAudit nodeId generation skill (prior skill)) =
        (maybeAudit nodeId generation first (prior first)).toList ++
          skills.filterMap fun skill => maybeAudit nodeId generation skill (prior skill) := by
      rw [List.filterMap_cons]
      cases maybeAudit nodeId generation first (prior first) <;> rfl
    rw [hsplit, lastEvent_append]
    rcases List.mem_cons.mp hskill with rfl | hskill
    · have hlater : lastEvent (skills.filterMap fun skill =>
          maybeAudit nodeId generation skill (prior skill)) nodeId skill.name = none := by
        refine lastEvent_none fun event hevent => ?_
        obtain ⟨other, hother, hsome⟩ := List.mem_filterMap.mp hevent
        obtain ⟨action, -, -, rfl⟩ := maybeAudit_some hsome
        exact about_event fun heq => hfresh (List.mem_map.mpr ⟨other, hother, heq⟩)
      rw [hlater, Option.none_or]
      cases hown : maybeAudit nodeId generation skill (prior skill) with
      | none => rfl
      | some event =>
        obtain ⟨action, haction, -, rfl⟩ := maybeAudit_some hown
        rw [lastEvent, Option.toList_some, List.filter_cons_of_pos (about_own (auditAction_cases haction))]
        rfl
    · rw [ih hrest hskill]
      have hearlier : lastEvent (maybeAudit nodeId generation first (prior first)).toList nodeId
          skill.name = none := by
        refine lastEvent_none fun event hevent => ?_
        obtain ⟨action, -, -, rfl⟩ := maybeAudit_some (Option.mem_toList.mp hevent)
        exact about_event fun heq => hfresh (List.mem_map.mpr ⟨skill, hskill, heq.symm⟩)
      rw [hearlier, Option.or_none]

end

/-! ## Reports -/

section

variable {trail trail' : Trail} {report : SkillStateReport}

theorem applyReport_inv {db db' : Db} (h : db.applyReport report = some db')
    (hnew : ¬ report.appliedGeneration < Db.maxGeneration (db.actual report.nodeId)) :
    db' = accepted db report ∧ (report.skills = [] ∨ report.nodeId ∈ db.nodes) ∧
      (report.skills.map (·.name)).Nodup := by
  unfold Db.applyReport at h
  rw [if_neg hnew] at h
  split at h
  · cases h
  · next hknown =>
    split at h
    · cases h
    · next hnames =>
      cases h
      refine ⟨rfl, ?_, not_not.mp hnames⟩
      by_cases hskills : report.skills = []
      · exact .inl hskills
      · exact .inr (not_not.mp fun hunknown => hknown ⟨hskills, hunknown⟩)

/-- A report is dropped, or its rows take the place of those before. -/
theorem Trail.applyReport_cases (h : trail.applyReport report = some trail') :
    (report.appliedGeneration < Db.maxGeneration (trail.db.actual report.nodeId) ∧ trail' = trail) ∨
      Db.maxGeneration (trail.db.actual report.nodeId) ≤ report.appliedGeneration ∧
        trail' = ⟨accepted trail.db report, trail.audit ++ trail.events report⟩ ∧
        (report.skills = [] ∨ report.nodeId ∈ trail.db.nodes) ∧
        (report.skills.map (·.name)).Nodup := by
  unfold Trail.applyReport at h
  split at h
  · next hold =>
    cases h
    exact .inl ⟨hold, rfl⟩
  · next hnew =>
    obtain ⟨db, hdb, rfl⟩ := Option.map_eq_some_iff.mp h
    obtain ⟨rfl, hknown, hnames⟩ := applyReport_inv hdb hnew
    exact .inr ⟨not_lt.mp hnew, rfl, hknown, hnames⟩

theorem actual_accepted (db : Db) (report : SkillStateReport) :
    (accepted db report).actual report.nodeId =
      report.skills.map fun skill => ⟨skill, report.appliedGeneration⟩ := Function.update_self _ _ _

theorem actual_accepted_other (db : Db) {nodeId : NodeId} (h : nodeId ≠ report.nodeId) :
    (accepted db report).actual nodeId = db.actual nodeId := Function.update_of_ne h _ _

/-- Every stored row is described. -/
def Trail.Describes (trail : Trail) : Prop :=
  ∀ nodeId, ∀ row ∈ trail.db.actual nodeId, Described trail.audit nodeId row.skill

theorem Described.append {audit later : List NodeAudit} {nodeId : NodeId} {skill : InstalledSkill}
    (h : Described audit nodeId skill) (hlater : lastEvent later nodeId skill.name = none) :
    Described (audit ++ later) nodeId skill := by
  intro action haction
  obtain ⟨generation, reported, hsame, hlast⟩ := h action haction
  refine ⟨generation, reported, hsame, ?_⟩
  rw [lastEvent_append, hlater, Option.none_or, hlast]

theorem Trail.Describes.accept (h : trail.Describes) (hnames : (report.skills.map (·.name)).Nodup) :
    Trail.Describes ⟨accepted trail.db report, trail.audit ++ trail.events report⟩ := by
  intro nodeId row hrow
  by_cases hnode : nodeId = report.nodeId
  · subst hnode
    dsimp only at hrow
    rw [actual_accepted] at hrow
    obtain ⟨skill, hskill, rfl⟩ := List.mem_map.mp hrow
    have hlast : lastEvent (trail.events report) report.nodeId skill.name =
        maybeAudit report.nodeId report.appliedGeneration skill (trail.prior report.nodeId skill.name) :=
      lastEvent_events hnames hskill
    intro action haction
    cases hevent : maybeAudit report.nodeId report.appliedGeneration skill
        (trail.prior report.nodeId skill.name) with
    | some event =>
      obtain ⟨action', haction', -, rfl⟩ := maybeAudit_some hevent
      cases haction.symm.trans haction'
      refine ⟨report.appliedGeneration, skill, rfl, ?_⟩
      rw [lastEvent_append, hlast, hevent]
      rfl
    | none =>
      -- The row before said the same, and so did its last event.
      have hprior : trail.prior report.nodeId skill.name = some (summary skill) := by
        rw [maybeAudit, haction] at hevent
        by_contra hne
        dsimp only at hevent
        rw [if_neg hne] at hevent
        cases hevent
      obtain ⟨row, hrow, hsame⟩ := Option.map_eq_some_iff.mp hprior
      obtain ⟨hmem, hname⟩ := actualFor_some hrow
      have hstate : row.skill.state = skill.state := congrArg (·.state) hsame
      have hdescribed := h report.nodeId row hmem
      rw [Described, hname] at hdescribed
      obtain ⟨generation, reported, hreported, hfound⟩ := hdescribed action (hstate ▸ haction)
      refine ⟨generation, reported, hreported.trans hsame, ?_⟩
      rw [lastEvent_append, hlast, hevent, Option.none_or, hfound]
  · dsimp only at hrow
    rw [actual_accepted_other _ hnode] at hrow
    refine (h nodeId row hrow).append (lastEvent_none fun event hevent => ?_)
    obtain ⟨skill, -, hsome⟩ := List.mem_filterMap.mp hevent
    obtain ⟨action, -, -, rfl⟩ := maybeAudit_some hsome
    simp [about, Ne.symm hnode]

theorem Trail.Describes.step (h : trail.Describes) (entry : Entry) : (trail.step entry).Describes := by
  cases entry with
  | report report fails =>
    cases fails with
    | true => exact h
    | false =>
      show ((trail.applyReport report).getD trail).Describes
      cases happlied : trail.applyReport report with
      | none => exact h
      | some trail' =>
        rcases Trail.applyReport_cases happlied with ⟨-, rfl⟩ | ⟨-, rfl, -, hnames⟩
        · exact h
        · exact h.accept hnames
  | other event hapart =>
    intro nodeId row hrow
    refine (h nodeId row hrow).append (lastEvent_none fun found hfound => ?_)
    cases List.mem_singleton.mp hfound
    rw [← Bool.not_eq_true]
    intro habout
    simp only [about, Bool.and_eq_true, Bool.or_eq_true, decide_eq_true_eq] at habout
    obtain ⟨state, hstate⟩ := auditAction_of_action habout.2
    exact hapart state hstate

theorem Trail.Describes.run (h : trail.Describes) (entries : List Entry) :
    (trail.run entries).Describes := by
  induction entries generalizing trail with
  | nil => exact h
  | cons entry entries ih => exact ih (h.step entry)

theorem maxGeneration_nonneg (rows : List ActualRow) : 0 ≤ Db.maxGeneration rows := by
  unfold Db.maxGeneration
  induction rows using List.reverseRecOn with
  | nil => exact le_refl _
  | append_singleton rows row ih =>
    rw [List.foldl_append]
    exact le_max_of_le_left ih

/-- A report that comes again changes nothing. -/
theorem Trail.applyReport_again (h : trail.applyReport report = some trail') :
    trail'.applyReport report = some trail' := by
  rcases Trail.applyReport_cases h with ⟨hold, rfl⟩ | ⟨hnew, rfl, hknown, hnames⟩
  · exact if_pos hold
  · have hnonneg : 0 ≤ report.appliedGeneration := (maxGeneration_nonneg _).trans hnew
    have hcurrent : Db.maxGeneration ((accepted trail.db report).actual report.nodeId) ≤
        report.appliedGeneration := by
      rw [actual_accepted]
      refine maxGeneration_le hnonneg fun row hrow => ?_
      obtain ⟨skill, -, rfl⟩ := List.mem_map.mp hrow
      exact le_refl _
    have hrows : accepted (accepted trail.db report) report = accepted trail.db report := by
      simp [accepted]
    have hevents : Trail.events ⟨accepted trail.db report, trail.audit ++ trail.events report⟩ report =
        [] := by
      refine List.filterMap_eq_nil_iff.mpr fun skill hskill => ?_
      rw [Trail.prior, actualFor_accepted hnames hskill, maybeAudit]
      split
      · rfl
      · exact if_pos rfl
    rw [Trail.applyReport, if_neg (not_lt.mpr hcurrent), applyReport_accepted hcurrent hknown hnames,
      Option.map_some, hrows, hevents, List.append_nil]

end

/-- Over any reports and other events, the last event for a stored skill says what its row says, and
a report that comes again changes nothing and appends nothing. -/
theorem trail_describes (nodes : List NodeId) (entries : List Entry) :
    (∀ nodeId, ∀ row ∈ ((Trail.start nodes).run entries).db.actual nodeId,
      ∀ action, auditAction row.skill.state = some action → ∃ generation reported,
        summary reported = summary row.skill ∧
        lastEvent ((Trail.start nodes).run entries).audit nodeId row.skill.name =
          some ⟨nodeId, action, row.skill.name, auditDetail generation reported⟩) ∧
    ∀ report trail, ((Trail.start nodes).run entries).applyReport report = some trail →
      trail.applyReport report = some trail := by
  have hstart : (Trail.start nodes).Describes := fun _ row hrow => by cases hrow
  exact ⟨hstart.run entries, fun report trail h => Trail.applyReport_again h⟩

end Novbot.Delivery
