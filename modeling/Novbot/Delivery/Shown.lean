import Novbot.Delivery.Wire
import Novbot.Skills.Reopened

/-!
# What is shown of the skills of a node

The center and its nodes, as far as skills go.  Desired sets change, and each change counts the
generation of its node up.  They are sent, and what is sent arrives late, in any order, more than
once or not at all; so do the reports.  A node may start again at any time, also after it stopped
in the middle of a reconcile.

Whatever happens, the center shows a skill as installed only if the node ran the desired version,
and as failed only if the node failed at this version in the current generation
(`shown_truly`).  A report of the current generation leaves no skill pending.
-/

namespace Novbot.Delivery

open Novbot.Control (NodeId InstalledSkill SkillStateReport DesiredSkills DesiredRow ActualRow Db)
open Novbot.Skills (ReportedSkill SkillSnapshot DesiredSet Host Conditions Disk Setup)

/-! ## The center and its nodes -/

structure World where
  db : Db
  /-- The generations that were read by deliveries whose rows are still to be read. -/
  reads : List (NodeId × Int)
  /-- What was sent to nodes. -/
  wire : List DesiredSkills
  hosts : NodeId → Host
  /-- What nodes have reported. -/
  reports : List SkillStateReport
  /-- What the host of a node has been, newest first. -/
  past : NodeId → List Host

/-- A host without skills or files. -/
def bareHost : Host := ⟨⟨0, 0, .empty, none, [], Skills.defaultPolicy⟩, .empty⟩

/-- No skill was ever desired. -/
def World.start (nodes : List NodeId) : World :=
  ⟨{ Db.empty with nodes }, [], [], fun _ => bareHost, [], fun _ => [bareHost]⟩

def World.become (w : World) (nodeId : NodeId) (host : Host) : World :=
  { w with
    hosts := Function.update w.hosts nodeId host
    past := Function.update w.past nodeId (host :: w.past nodeId) }

/-- A transaction that changes the desired rows of a node. -/
def World.desire (w : World) (nodeId : NodeId) (rows : List DesiredRow) : World :=
  { w with db := { w.db with
      skillSets := Function.update w.db.skillSets nodeId (some (w.db.skillGeneration nodeId + 1))
      desired := Function.update w.db.desired nodeId rows } }

inductive Step (setup : NodeId → Setup) (w : World) : World → Prop where
  | desire (nodeId : NodeId) (rows : List DesiredRow) (known : nodeId ∈ w.db.nodes)
    (unique : (rows.map (·.skillName)).Nodup) : Step setup w (w.desire nodeId rows)
  /-- `build_desired` reads the generation, and then the rows. -/
  | readGeneration (nodeId : NodeId) :
    Step setup w { w with reads := (nodeId, w.db.skillGeneration nodeId) :: w.reads }
  | send (nodeId : NodeId) (generation : Int) (issue : DesiredRow → String × List UInt8)
    (read : (nodeId, generation) ∈ w.reads) : Step setup w { w with
      wire := buildDesired nodeId generation (w.db.desired nodeId) issue :: w.wire }
  | receive (message : DesiredSkills) (conditions : Conditions) (sent : message ∈ w.wire) :
    Step setup w (w.become message.forNode ((w.hosts message.forNode).reconcile
      (setup message.forNode) (setFromProto message) conditions).1)
  /-- The node stops while it reconciles, and starts again. -/
  | stop (message : DesiredSkills) (conditions : Conditions) (disk : Disk) (host : Host)
    (stamp : String) (writeFails : Option String) (sent : message ∈ w.wire)
    (something : (w.hosts message.forNode).inner.isNoop (setFromProto message) = false)
    (stopped : Skills.Stopped (setup message.forNode) (w.hosts message.forNode)
      (setFromProto message) conditions disk)
    (opened : Skills.openHost (setup message.forNode).formats stamp writeFails disk = .ok host) :
    Step setup w (w.become message.forNode host)
  | restart (nodeId : NodeId) (host : Host) (stamp : String) (writeFails : Option String)
    (opened : Skills.openHost (setup nodeId).formats stamp writeFails (w.hosts nodeId).disk =
      .ok host) : Step setup w (w.become nodeId host)
  | report (nodeId : NodeId) : Step setup w { w with
      reports := toReport nodeId (w.hosts nodeId).inner.snapshot :: w.reports }
  | applyReport (report : SkillStateReport) (db : Db) (made : report ∈ w.reports)
    (applied : w.db.applyReport report = some db) : Step setup w { w with db }

inductive Reachable (setup : NodeId → Setup) (nodes : List NodeId) : World → Prop where
  | start : Reachable setup nodes (.start nodes)
  | step (w w' : World) (earlier : Reachable setup nodes w) (step : Step setup w w') :
    Reachable setup nodes w'

/-! ## What holds of every world -/

/-- A hash as the nodes see it. -/
abbrev shaOf (row : DesiredRow) : String := Control.Hub.normalSha row.sha256

/-- The host settled these rows: each is reported, as installed only if it is active. -/
structure Answers (rows : List DesiredRow) (host : Host) (reported : List ReportedSkill) : Prop where
  names : (reported.map (·.name)).Perm (rows.map (·.skillName))
  each : ∀ row ∈ rows, ∃ skill ∈ reported, skill.name = row.skillName ∧ skill.sha256 = shaOf row ∧
    ((skill.state = .installed ∧ ∃ entry, host.inner.skills.lookup row.skillName = some entry ∧
        entry.sha256 = shaOf row) ∨
      skill.state = .failed ∧ skill.reason.isSome = true)

/-- What a host is to the generation and the rows of its node. -/
structure HostInv (generation : Int) (rows : List DesiredRow) (host : Host) : Prop where
  applied : host.inner.generation ≤ generation
  stated : host.disk.stated.generation ≤ generation
  boot : host.inner.bootFailures = [] ∨ host.inner.generation = 0
  bootFailed : ∀ skill ∈ host.inner.bootFailures, skill.state = .failed
  reported : ∀ report, host.inner.lastReport = some report →
    report.appliedGeneration = host.inner.generation ∧ host.inner.bootFailures = [] ∧
      (∀ skill ∈ report.skills, skill.state = .installed → ∃ entry,
        host.inner.skills.lookup skill.name = some entry ∧ entry.sha256 = skill.sha256) ∧
      (host.inner.generation = generation → Answers rows host report.skills)

/-- The host failed at this skill of a desired set, which has this generation. -/
def FailedAt (generation : Int) (rows : List DesiredRow) (name sha256 : String) (host : Host) : Prop :=
  host.inner.generation = generation ∧ (∃ row ∈ rows, row.skillName = name ∧ sha256 = shaOf row) ∧
    ∃ skill ∈ host.inner.snapshot.skills, skill.name = name ∧ skill.sha256 = sha256 ∧
      skill.state = .failed ∧ skill.reason.isSome = true

/-- What was reported of a skill was so. -/
structure Backed (generation : Int) (rows : List DesiredRow) (past : List Host) (applied : Int)
    (skill : InstalledSkill) : Prop where
  older : applied ≤ generation
  installed : skill.state = "installed" → ∃ host ∈ past, ∃ entry,
    host.inner.skills.lookup skill.name = some entry ∧ entry.sha256 = skill.sha256
  failed : skill.state = "failed" → applied = generation → generation = 0 ∨
    ∃ host ∈ past, FailedAt generation rows skill.name skill.sha256 host

structure NodeInv (w : World) (nodeId : NodeId) : Prop where
  nonneg : 0 ≤ w.db.skillGeneration nodeId
  desired : w.db.desired nodeId = [] ∨ nodeId ∈ w.db.nodes ∧ 0 < w.db.skillGeneration nodeId
  unique : ((w.db.desired nodeId).map (·.skillName)).Nodup
  reads : ∀ generation, (nodeId, generation) ∈ w.reads → generation ≤ w.db.skillGeneration nodeId
  wire : ∀ message ∈ w.wire, message.forNode = nodeId →
    message.generation ≤ w.db.skillGeneration nodeId ∧ ∃ rows issue,
      message = buildDesired nodeId message.generation rows issue ∧
      (rows.map (·.skillName)).Nodup ∧
      (message.generation = w.db.skillGeneration nodeId → rows = w.db.desired nodeId)
  host : HostInv (w.db.skillGeneration nodeId) (w.db.desired nodeId) (w.hosts nodeId)
  present : w.hosts nodeId ∈ w.past nodeId
  reports : ∀ report ∈ w.reports, report.nodeId = nodeId → ∀ skill ∈ report.skills,
    Backed (w.db.skillGeneration nodeId) (w.db.desired nodeId) (w.past nodeId)
      report.appliedGeneration skill
  actual : ∀ row ∈ w.db.actual nodeId, Backed (w.db.skillGeneration nodeId) (w.db.desired nodeId)
    (w.past nodeId) row.appliedGeneration row.skill

/-! ## Desired sets as they arrive -/

section

variable {nodeId : NodeId} {generation : Int} {rows : List DesiredRow}
  {issue : DesiredRow → String × List UInt8}

theorem fromProto_names : (setFromProto (buildDesired nodeId generation rows issue)).skills.map (·.name) =
    rows.map (·.skillName) := by
  simp only [setFromProto, buildDesired, List.map_map]
  rfl

theorem fromProto_mem {row : DesiredRow} (h : row ∈ rows) :
    ∃ skill ∈ (setFromProto (buildDesired nodeId generation rows issue)).skills,
      skill.name = row.skillName ∧ skill.sha256 = shaOf row := by
  refine ⟨skillFromProto (skillRef row (issue row).1 (issue row).2), ?_, rfl, normalSha_again _⟩
  exact List.mem_map_of_mem (List.mem_map_of_mem h)

end

/-! ## Hosts -/

section

variable {generation : Int} {rows : List DesiredRow} {host : Host} {setup : Setup} {stamp : String}
  {writeFails : Option String} {disk : Disk}

theorem openSkills_failed {formats : Package.Formats} {entries : List (String × Skills.DiskSkill)}
    {opening opening' : Skills.Opening}
    (h : entries.foldlM (fun opening (name, skill) => Skills.openSkill formats stamp opening name skill)
      opening = .ok opening') (hfailed : ∀ skill ∈ opening.failures, skill.state = .failed) :
    ∀ skill ∈ opening'.failures, skill.state = .failed := by
  induction entries generalizing opening with
  | nil =>
    cases h
    exact hfailed
  | cons entry entries ih =>
    rw [List.foldlM_cons] at h
    obtain ⟨mid, hmid, hrest⟩ := Check.bind_eq_ok.mp h
    refine ih hrest ?_
    simp only [Skills.openSkill] at hmid
    split at hmid
    · cases hmid
      exact hfailed
    · obtain ⟨after, -, hpure⟩ := Check.bind_eq_ok.mp hmid
      cases hpure
      intro skill hskill
      rcases List.mem_append.mp hskill with hskill | hskill
      · exact hfailed skill hskill
      · cases List.mem_singleton.mp hskill
        rfl

theorem openHost_failed {formats : Package.Formats}
    (h : Skills.openHost formats stamp writeFails disk = .ok host) :
    ∀ skill ∈ host.inner.bootFailures, skill.state = .failed := by
  rw [Skills.openHost, ← Disk.stated] at h
  dsimp only at h
  obtain ⟨opening, hopening, h⟩ := Check.bind_eq_ok.mp h
  have hfailed := openSkills_failed hopening fun skill hskill => by cases hskill
  split at h
  · cases h
    exact hfailed
  · split at h
    · cases h
    · cases h
      exact hfailed

/-- A host that starts again. -/
theorem opened_hostInv {formats : Package.Formats} (hnonneg : 0 ≤ generation)
    (hstated : disk.stated.generation ≤ generation)
    (h : Skills.openHost formats stamp writeFails disk = .ok host) : HostInv generation rows host := by
  have hfailed := openHost_failed h
  rcases (Skills.openHost_opensTo h).written with ⟨hnone, hdisk, hinner⟩ | ⟨-, hstate, hinner⟩
  · refine ⟨?_, hdisk ▸ hstated, .inl hnone, hfailed, fun report hreport => ?_⟩
    · rw [hinner]
      exact hstated
    · rw [hinner] at hreport
      cases hreport
  · refine ⟨?_, ?_, .inr ?_, hfailed, fun report hreport => ?_⟩
    · rw [hinner]
      exact hnonneg
    · rw [Disk.stated, hstate]
      exact hnonneg
    · rw [hinner]
    · rw [hinner] at hreport
      cases hreport

/-- What arrives is settled, unless it is old. -/
theorem HostInv.receive {message : DesiredSkills} {sent : List DesiredRow}
    {issue : DesiredRow → String × List UInt8} {conditions : Conditions} (h : HostInv generation rows host)
    (hmessage : message = buildDesired message.forNode message.generation sent issue)
    (hunique : (sent.map (·.skillName)).Nodup) (hold : message.generation ≤ generation)
    (hcurrent : message.generation = generation → sent = rows) :
    HostInv generation rows (host.reconcile setup (setFromProto message) conditions).1 := by
  cases hnoop : host.inner.isNoop (setFromProto message) with
  | true => rwa [Skills.reconcile_of_noop hnoop]
  | false =>
    have hnames : (setFromProto message).skills.map (·.name) = sent.map (·.skillName) := by
      rw [hmessage]
      exact fromProto_names
    have hdistinct : ((setFromProto message).skills.map (·.name)).Nodup := hnames ▸ hunique
    have hsettles := @Skills.settled_settles setup host (setFromProto message) conditions hnoop hdistinct
    obtain ⟨hcovers, -⟩ := hsettles.covers hdistinct
    have hinner := (@Skills.reconcile_of_not_noop setup host (setFromProto message) conditions hnoop).1
    have hstated : (host.reconcile setup (setFromProto message) conditions).1.disk.stated.generation ≤
        generation := by
      have hsettled : (host.settled setup (setFromProto message) conditions).disk.stated =
          host.disk.stated := by
        rw [Disk.stated, Host.settled, Skills.turns_state]
        rfl
      rw [Skills.reconcile_disk hnoop]
      split
      · exact hsettled ▸ h.stated
      · exact hold
    have hfailures : (host.reconcile setup (setFromProto message) conditions).1.inner.bootFailures = [] :=
      congrArg (·.bootFailures) hinner
    have happlied : (host.reconcile setup (setFromProto message) conditions).1.inner.generation =
        message.generation := congrArg (·.generation) hinner
    refine ⟨happlied ▸ hold, hstated, .inl hfailures, ?_, fun report hreport => ?_⟩
    · rw [hfailures]
      exact fun skill hskill => by cases hskill
    · have hreport' : (host.reconcile setup (setFromProto message) conditions).2 = report := by
        rw [hinner] at hreport
        exact Option.some.inj hreport
      subst hreport'
      refine ⟨hsettles.applied.trans happlied.symm, hfailures, fun skill hskill hinstalled => ?_,
        fun hgeneration => ?_⟩
      · refine (hcovers skill hskill).resolve_left fun hfailed => ?_
        rw [hinstalled] at hfailed
        cases hfailed
      · have hrows := hcurrent (happlied.symm.trans hgeneration)
        subst hrows
        refine ⟨hsettles.reports.trans (.of_eq hnames), fun row hrow => ?_⟩
        obtain ⟨skill, hskill, hname, hsha⟩ : ∃ skill ∈ (setFromProto message).skills,
            skill.name = row.skillName ∧ skill.sha256 = shaOf row := by
          rw [hmessage]
          exact fromProto_mem hrow
        obtain ⟨reported, hreported, hreportedName, hreportedSha, hstate⟩ := hsettles.skills skill hskill
        refine ⟨reported, hreported, hreportedName.trans hname, hreportedSha.trans hsha, ?_⟩
        rcases hstate with ⟨hinstalled, entry, hentry, hentrySha⟩ | ⟨hfailed, hreason, -⟩
        · exact .inl ⟨hinstalled, entry, hname ▸ hentry, hentrySha.trans hsha⟩
        · exact .inr ⟨hfailed, hreason⟩

/-- The files of a process that stopped. -/
theorem stopped_state {desired : DesiredSet} {conditions : Conditions}
    (h : Skills.Stopped setup host desired conditions disk) :
    disk.state = host.disk.state ∨
      ∃ active, disk.state = some (Skills.diskState desired.generation active) := by
  cases h with
  | turn seen rest skill made tried store cache downloads hskills hattempts hhalted =>
    exact .inl (hattempts.state.trans Skills.turns_state)
  | settled => exact .inl Skills.turns_state
  | written => exact .inr ⟨_, rfl⟩

end

/-! ## Reports -/

section

variable {generation : Int} {rows : List DesiredRow} {host : Host} {past : List Host} {applied : Int}
  {skill : InstalledSkill}

theorem reportStateText_inj {left right : Skills.ReportState}
    (h : reportStateText left = reportStateText right) : left = right := by
  cases left with
  | installed =>
    cases right with
    | installed => rfl
    | failed => exact absurd h (by decide)
  | failed =>
    cases right with
    | installed => exact absurd h (by decide)
    | failed => rfl

theorem Backed.mono (h : Backed generation rows past applied skill) {past' : List Host}
    (hpast : past ⊆ past') : Backed generation rows past' applied skill := by
  refine ⟨h.older, fun hstate => ?_, fun hstate happlied => ?_⟩
  · obtain ⟨host, hhost, hentry⟩ := h.installed hstate
    exact ⟨host, hpast hhost, hentry⟩
  · refine (h.failed hstate happlied).imp_right ?_
    rintro ⟨host, hhost, hfailed⟩
    exact ⟨host, hpast hhost, hfailed⟩

/-- What was reported of an older generation says nothing of the rows that are desired now. -/
theorem Backed.newer (h : Backed generation rows past applied skill) {generation' : Int}
    (hnewer : generation < generation') (rows' : List DesiredRow) :
    Backed generation' rows' past applied skill := by
  have holder := h.older
  refine ⟨by omega, h.installed, fun _ happlied => ?_⟩
  omega

theorem mem_built_cases {inner : Skills.Inner} {reported : ReportedSkill}
    (h : reported ∈ inner.built.skills) : (∃ name entry, inner.skills.lookup name = some entry ∧
        reported = Skills.activeReport name entry) ∨ reported ∈ inner.bootFailures := by
  have hmem := (List.mergeSort_perm _ _).mem_iff.mp h
  rcases List.mem_append.mp hmem with hactive | hfailure
  · obtain ⟨⟨name, entry⟩, hentry, rfl⟩ := List.mem_map.mp hactive
    exact .inl ⟨name, entry, SortedMap.lookup_eq_some_iff.mpr hentry, rfl⟩
  · exact .inr hfailure

theorem snapshot_of_report {report : SkillSnapshot} (h : HostInv generation rows host)
    (hreport : host.inner.lastReport = some report) : host.inner.snapshot = report := by
  obtain ⟨happlied, hnone, -⟩ := h.reported report hreport
  rw [Skills.Inner.snapshot, hreport]
  exact if_pos ⟨happlied, hnone⟩

/-- A failure that is reported in the current generation is one of a skill that is desired now. -/
theorem Answers.failedAt {report : SkillSnapshot} (h : Answers rows host report.skills)
    (hunique : (rows.map (·.skillName)).Nodup) (hsnapshot : host.inner.snapshot = report)
    (hgeneration : host.inner.generation = generation) {reported : ReportedSkill}
    (hreported : reported ∈ report.skills) (hfailed : reported.state = .failed) :
    FailedAt generation rows reported.name reported.sha256 host := by
  obtain ⟨row, hrow, hname⟩ := List.mem_map.mp (h.names.mem_iff.mp (List.mem_map_of_mem hreported))
  obtain ⟨found, hfound, hfoundName, hsha, hstate⟩ := h.each row hrow
  have hsame : found = reported :=
    List.inj_on_of_nodup_map (h.names.nodup_iff.mpr hunique) hfound hreported (hfoundName.trans hname)
  subst hsame
  refine ⟨hgeneration, ⟨row, hrow, hname, hsha⟩, found, hsnapshot ▸ hreported, rfl, rfl, hfailed, ?_⟩
  rcases hstate with ⟨hinstalled, -⟩ | ⟨-, hreason⟩
  · rw [hfailed] at hinstalled
    cases hinstalled
  · exact hreason

/-- What a host says of itself is so. -/
theorem HostInv.backed (h : HostInv generation rows host) (hunique : (rows.map (·.skillName)).Nodup)
    (hpresent : host ∈ past) {reported : ReportedSkill}
    (hreported : reported ∈ host.inner.snapshot.skills) :
    Backed generation rows past host.inner.snapshot.appliedGeneration (reportedToProto reported) := by
  rw [Skills.snapshot_applied]
  cases hlast : host.inner.lastReport with
  | some report =>
    have hsnapshot := snapshot_of_report h hlast
    rw [hsnapshot] at hreported
    obtain ⟨-, -, hinstalled, hanswers⟩ := h.reported report hlast
    refine ⟨h.applied, fun hstate => ?_, fun hstate happlied => .inr ?_⟩
    · exact ⟨host, hpresent, hinstalled reported hreported (reportStateText_inj hstate)⟩
    · exact ⟨host, hpresent, (hanswers happlied).failedAt hunique hsnapshot happlied hreported
        (reportStateText_inj hstate)⟩
  | none =>
    have hbuilt : host.inner.snapshot = host.inner.built := by rw [Skills.Inner.snapshot, hlast]
    rw [hbuilt] at hreported
    rcases mem_built_cases hreported with ⟨name, entry, hentry, rfl⟩ | hfailure
    · refine ⟨h.applied, fun _ => ⟨host, hpresent, entry, hentry, rfl⟩, fun hstate _ => ?_⟩
      cases (reportStateText_inj hstate : Skills.ReportState.installed = .failed)
    · refine ⟨h.applied, fun hstate => ?_, fun _ happlied => .inl ?_⟩
      · have hfailed := h.bootFailed reported hfailure
        have hinstalled : reported.state = .installed := reportStateText_inj hstate
        rw [hfailed] at hinstalled
        cases hinstalled
      · rcases h.boot with hnone | hzero
        · rw [hnone] at hfailure
          cases hfailure
        · exact happlied.symm.trans hzero

end

/-! ## Steps -/

/-- The rows of a report take the place of those of its node. -/
def accepted (db : Db) (report : SkillStateReport) : Db :=
  { db with
    actual := Function.update db.actual report.nodeId
      (report.skills.map fun skill => ⟨skill, report.appliedGeneration⟩) }

theorem applyReport_eq {db db' : Db} {report : SkillStateReport} (h : db.applyReport report = some db') :
    db' = db ∨ db' = accepted db report := by
  unfold Db.applyReport at h
  split at h
  · cases h
    exact .inl rfl
  · split at h
    · cases h
    · split at h
      · cases h
      · cases h
        exact .inr rfl

theorem applyReport_accepted {db : Db} {report : SkillStateReport}
    (hnew : Db.maxGeneration (db.actual report.nodeId) ≤ report.appliedGeneration)
    (hknown : report.skills = [] ∨ report.nodeId ∈ db.nodes)
    (hnames : (report.skills.map (·.name)).Nodup) : db.applyReport report = some (accepted db report) := by
  unfold Db.applyReport
  rw [if_neg (not_lt.mpr hnew), if_neg, if_neg (not_not.mpr hnames)]
  · rfl
  · rintro ⟨hsome, hunknown⟩
    exact hknown.elim hsome hunknown

/-- The row of a skill of an accepted report. -/
theorem actualFor_accepted {db : Db} {report : SkillStateReport} {skill : InstalledSkill}
    (hnames : (report.skills.map (·.name)).Nodup) (hskill : skill ∈ report.skills) :
    actualFor (accepted db report) report.nodeId skill.name = some ⟨skill, report.appliedGeneration⟩ := by
  have hrows : (accepted db report).actual report.nodeId =
      report.skills.map fun skill => ⟨skill, report.appliedGeneration⟩ := Function.update_self _ _ _
  rw [actualFor, hrows, List.find?_map, Option.map_eq_some_iff]
  refine ⟨skill, ?_, rfl⟩
  cases hfind : report.skills.find? ((fun row : ActualRow => decide (row.skill.name = skill.name)) ∘
      fun skill => ⟨skill, report.appliedGeneration⟩) with
  | none =>
    have hnone := List.find?_eq_none.mp hfind skill hskill
    simp at hnone
  | some found =>
    have hname : found.name = skill.name := by simpa using List.find?_some hfind
    rw [List.inj_on_of_nodup_map hnames (List.mem_of_find?_eq_some hfind) hskill hname]

section

variable {w w' : World} {nodeId : NodeId}

/-- A host that takes the place of the last one of its node. -/
theorem NodeInv.become (h : NodeInv w nodeId) {other : NodeId} {host : Host}
    (hhost : other = nodeId → HostInv (w.db.skillGeneration nodeId) (w.db.desired nodeId) host) :
    NodeInv (w.become other host) nodeId := by
  by_cases heq : nodeId = other
  · subst heq
    have hpast : w.past nodeId ⊆ (w.become nodeId host).past nodeId := by
      simp [World.become]
    refine ⟨h.nonneg, h.desired, h.unique, h.reads, h.wire, ?_, ?_, ?_, ?_⟩
    · simpa [World.become] using hhost rfl
    · simp [World.become]
    · exact fun report hreport hnode skill hskill =>
        (h.reports report hreport hnode skill hskill).mono hpast
    · exact fun row hrow => (h.actual row hrow).mono hpast
  · have hhosts : (w.become other host).hosts nodeId = w.hosts nodeId := Function.update_of_ne heq _ _
    have hpast : (w.become other host).past nodeId = w.past nodeId := Function.update_of_ne heq _ _
    refine ⟨h.nonneg, h.desired, h.unique, h.reads, h.wire, ?_, ?_, ?_, ?_⟩
    · rw [hhosts]
      exact h.host
    · rw [hhosts, hpast]
      exact h.present
    · rw [hpast]
      exact h.reports
    · rw [hpast]
      exact h.actual

theorem HostInv.newer {generation generation' : Int} {rows : List DesiredRow} {host : Host}
    (h : HostInv generation rows host) (hnewer : generation < generation') (rows' : List DesiredRow) :
    HostInv generation' rows' host := by
  have happlied := h.applied
  have hstated := h.stated
  refine ⟨by omega, by omega, h.boot, h.bootFailed, fun report hreport => ?_⟩
  obtain ⟨heq, hnone, hinstalled, -⟩ := h.reported report hreport
  exact ⟨heq, hnone, hinstalled, fun hcurrent => by omega⟩

theorem NodeInv.desire (h : NodeInv w nodeId) {other : NodeId} {rows : List DesiredRow}
    (hknown : other ∈ w.db.nodes) (hunique : (rows.map (·.skillName)).Nodup) :
    NodeInv (w.desire other rows) nodeId := by
  by_cases heq : nodeId = other
  · subst heq
    have hgeneration : (w.desire nodeId rows).db.skillGeneration nodeId =
        w.db.skillGeneration nodeId + 1 := by
      simp [World.desire, Db.skillGeneration]
    have hrows : (w.desire nodeId rows).db.desired nodeId = rows := Function.update_self _ _ _
    have hunique' : (((w.desire nodeId rows).db.desired nodeId).map (·.skillName)).Nodup := by
      rw [hrows]
      exact hunique
    have hnewer : w.db.skillGeneration nodeId < (w.desire nodeId rows).db.skillGeneration nodeId := by
      omega
    have hnonneg := h.nonneg
    refine ⟨by omega, .inr ⟨hknown, by omega⟩, hunique', ?_, ?_, h.host.newer hnewer _, h.present, ?_, ?_⟩
    · intro generation hread
      have hle := h.reads generation hread
      omega
    · intro message hmessage hnode
      obtain ⟨hle, sent, issue, hbuilt, hnames, -⟩ := h.wire message hmessage hnode
      exact ⟨by omega, sent, issue, hbuilt, hnames, fun hcurrent => by omega⟩
    · exact fun report hreport hnode skill hskill =>
        (h.reports report hreport hnode skill hskill).newer hnewer _
    · exact fun row hrow => (h.actual row hrow).newer hnewer _
  · have hgeneration : (w.desire other rows).db.skillGeneration nodeId = w.db.skillGeneration nodeId := by
      simp [World.desire, Db.skillGeneration, Function.update_of_ne heq]
    have hrows : (w.desire other rows).db.desired nodeId = w.db.desired nodeId :=
      Function.update_of_ne heq _ _
    constructor
    case nonneg => exact hgeneration ▸ h.nonneg
    case desired =>
      rw [hgeneration, hrows]
      exact h.desired
    case unique => exact hrows ▸ h.unique
    case reads =>
      rw [hgeneration]
      exact h.reads
    case wire =>
      rw [hgeneration, hrows]
      exact h.wire
    case host =>
      rw [hgeneration, hrows]
      exact h.host
    case present => exact h.present
    case reports =>
      rw [hgeneration, hrows]
      exact h.reports
    case actual =>
      rw [hgeneration, hrows]
      exact h.actual

/-- A message that arrives is of the current generation, with its rows, or of an older one. -/
theorem NodeInv.step {setup : NodeId → Setup} (h : ∀ nodeId, NodeInv w nodeId) (hstep : Step setup w w')
    (nodeId : NodeId) : NodeInv w' nodeId := by
  have hn := h nodeId
  cases hstep with
  | desire other rows hknown hunique => exact hn.desire hknown hunique
  | readGeneration other =>
    refine ⟨hn.nonneg, hn.desired, hn.unique, fun generation hread => ?_, hn.wire, hn.host, hn.present,
      hn.reports, hn.actual⟩
    rcases List.mem_cons.mp hread with heq | hread
    · cases heq
      exact le_refl _
    · exact hn.reads generation hread
  | send other generation issue hread =>
    refine ⟨hn.nonneg, hn.desired, hn.unique, hn.reads, fun message hmessage hnode => ?_, hn.host,
      hn.present, hn.reports, hn.actual⟩
    rcases List.mem_cons.mp hmessage with rfl | hmessage
    · cases hnode
      exact ⟨hn.reads generation hread, _, issue, rfl, hn.unique, fun _ => rfl⟩
    · exact hn.wire message hmessage hnode
  | receive message conditions hsent =>
    refine hn.become fun hnode => ?_
    subst hnode
    obtain ⟨hle, rows, issue, hbuilt, hnames, hcurrent⟩ := hn.wire message hsent rfl
    exact hn.host.receive hbuilt hnames hle hcurrent
  | stop message conditions disk host stamp writeFails hsent _ hstopped hopened =>
    refine hn.become fun hnode => ?_
    subst hnode
    refine opened_hostInv hn.nonneg ?_ hopened
    rcases stopped_state hstopped with hstate | ⟨active, hstate⟩
    · rw [Disk.stated, hstate, ← Disk.stated]
      exact hn.host.stated
    · rw [Disk.stated, hstate]
      exact (hn.wire message hsent rfl).1
  | restart other host stamp writeFails hopened =>
    refine hn.become fun hnode => ?_
    subst hnode
    exact opened_hostInv hn.nonneg hn.host.stated hopened
  | report other =>
    refine ⟨hn.nonneg, hn.desired, hn.unique, hn.reads, hn.wire, hn.host, hn.present,
      fun report hreport hnode skill hskill => ?_, hn.actual⟩
    rcases List.mem_cons.mp hreport with rfl | hreport
    · cases hnode
      obtain ⟨reported, hreported, rfl⟩ := List.mem_map.mp hskill
      exact hn.host.backed hn.unique hn.present hreported
    · exact hn.reports report hreport hnode skill hskill
  | applyReport report db hmade happlied =>
    rcases applyReport_eq happlied with rfl | rfl
    · exact hn
    · refine ⟨hn.nonneg, hn.desired, hn.unique, hn.reads, hn.wire, hn.host, hn.present, hn.reports,
        fun row hrow => ?_⟩
      dsimp only [accepted] at hrow
      by_cases hnode : nodeId = report.nodeId
      · subst hnode
        rw [Function.update_self] at hrow
        obtain ⟨skill, hskill, rfl⟩ := List.mem_map.mp hrow
        exact hn.reports report hmade rfl skill hskill
      · rw [Function.update_of_ne hnode] at hrow
        exact hn.actual row hrow

theorem start_inv (nodes : List NodeId) (nodeId : NodeId) : NodeInv (.start nodes) nodeId := by
  refine ⟨le_refl _, .inl rfl, List.nodup_nil, ?_, ?_, ?_, List.mem_singleton_self _, ?_, ?_⟩
  · exact fun generation hread => by cases hread
  · exact fun message hmessage => by cases hmessage
  · refine ⟨le_refl _, le_refl _, .inl rfl, fun skill hskill => ?_, fun report hreport => ?_⟩
    · cases hskill
    · cases hreport
  · exact fun report hreport => by cases hreport
  · exact fun row hrow => by cases hrow

theorem Reachable.inv {setup : NodeId → Setup} {nodes : List NodeId} (h : Reachable setup nodes w) :
    ∀ nodeId, NodeInv w nodeId := by
  induction h with
  | start => exact start_inv nodes
  | step w w' _ hstep ih => exact NodeInv.step ih hstep

end

/-! ## What is shown -/

section

variable {w : World} {nodeId : NodeId} {connected : Bool}

theorem mem_hubItems {db : Db} {response : NodeSkillsResponse} {item : NodeSkillItem}
    (h : listNodeSkills db connected nodeId = some response) (hitem : item ∈ response.items)
    (hhub : item.source = .hub) : ∃ row ∈ db.desired nodeId, item = hubItem db connected nodeId row := by
  unfold listNodeSkills at h
  split at h
  · cases h
    rcases List.mem_append.mp hitem with hbuiltin | hdesired
    · obtain ⟨name, -, rfl⟩ := List.mem_map.mp hbuiltin
      cases hhub
    · obtain ⟨row, hrow, rfl⟩ := List.mem_map.mp hdesired
      exact ⟨row, hrow, rfl⟩
  · cases h

theorem listed_generation {db : Db} {response : NodeSkillsResponse}
    (h : listNodeSkills db connected nodeId = some response) :
    response.generation = db.skillGeneration nodeId := by
  unfold listNodeSkills at h
  split at h
  · cases h
    rfl
  · cases h

theorem actualFor_some {db : Db} {name : String} {actual : ActualRow}
    (h : actualFor db nodeId name = some actual) :
    actual ∈ db.actual nodeId ∧ actual.skill.name = name :=
  ⟨List.mem_of_find?_eq_some h, by simpa using List.find?_some h⟩

theorem derivedState_cases {desiredSha : String} {generation : Int} {actual : Option ActualRow}
    {state : ShownState} (h : derivedState connected desiredSha generation actual = state) :
    (state = .installed → ∃ row, actual = some row ∧ row.skill.state = "installed" ∧
      sameSha row.skill.sha256 desiredSha = true) ∧
    (state = .failed → ∃ row, actual = some row ∧ row.skill.state = "failed" ∧
      row.appliedGeneration = generation) := by
  subst h
  have hwaiting : (if connected then ShownState.pending else .queued) ≠ .installed ∧
      (if connected then ShownState.pending else .queued) ≠ .failed := by
    cases connected <;> decide
  cases actual with
  | none => exact ⟨fun h => absurd h hwaiting.1, fun h => absurd h hwaiting.2⟩
  | some row =>
    simp only [derivedState]
    split
    · next hinstalled => exact ⟨fun _ => ⟨row, rfl, hinstalled⟩, fun h => ShownState.noConfusion h⟩
    · split
      · next hfailed => exact ⟨fun h => ShownState.noConfusion h, fun _ => ⟨row, rfl, hfailed⟩⟩
      · exact ⟨fun h => absurd h hwaiting.1, fun h => absurd h hwaiting.2⟩

/-- What is shown of a desired row. -/
theorem NodeInv.shown (h : NodeInv w nodeId) {row : DesiredRow} (hrow : row ∈ w.db.desired nodeId) :
    ((hubItem w.db connected nodeId row).state = .installed → ∃ host ∈ w.past nodeId, ∃ entry,
      host.inner.skills.lookup row.skillName = some entry ∧ sameSha entry.sha256 row.sha256 = true) ∧
    ((hubItem w.db connected nodeId row).state = .failed → ∃ host ∈ w.past nodeId,
      FailedAt (w.db.skillGeneration nodeId) (w.db.desired nodeId) row.skillName (shaOf row) host) := by
  have hcases (state : ShownState) (hstate : derivedState connected row.sha256
      (w.db.skillGeneration nodeId) (actualFor w.db nodeId row.skillName) = state) :=
    derivedState_cases hstate
  obtain ⟨hinstalled, hfailed⟩ := hcases _ rfl
  refine ⟨fun hstate => ?_, fun hstate => ?_⟩
  · obtain ⟨actual, hactual, htext, hsha⟩ := hinstalled hstate
    obtain ⟨hmem, hname⟩ := actualFor_some hactual
    obtain ⟨host, hhost, entry, hentry, hentrySha⟩ := (h.actual actual hmem).installed htext
    exact ⟨host, hhost, entry, hname ▸ hentry, hentrySha ▸ hsha⟩
  · obtain ⟨actual, hactual, htext, hgeneration⟩ := hfailed hstate
    obtain ⟨hmem, hname⟩ := actualFor_some hactual
    rcases (h.actual actual hmem).failed htext hgeneration with hzero | ⟨host, hhost, hat⟩
    · rcases h.desired with hnone | ⟨-, hpos⟩
      · rw [hnone] at hrow
        cases hrow
      · omega
    · obtain ⟨found, hfound, hfoundName, hsha⟩ := hat.2.1
      have hsame : found = row :=
        List.inj_on_of_nodup_map h.unique hfound hrow (hfoundName.trans hname)
      subst hsame
      exact ⟨host, hhost, hname ▸ hsha ▸ hat⟩

/-- The report of a host that settled the rows of its node. -/
def World.currentReport (w : World) (nodeId : NodeId) : SkillStateReport :=
  toReport nodeId (w.hosts nodeId).inner.snapshot

theorem maxGeneration_le {rows : List ActualRow} {generation : Int} (hnonneg : 0 ≤ generation)
    (h : ∀ row ∈ rows, row.appliedGeneration ≤ generation) : Db.maxGeneration rows ≤ generation := by
  unfold Db.maxGeneration
  induction rows using List.reverseRecOn with
  | nil => exact hnonneg
  | append_singleton rows row ih =>
    rw [List.foldl_append]
    exact max_le (ih fun row hrow => h row (List.mem_append_left _ hrow))
      (h row (List.mem_append_right _ (List.mem_singleton_self _)))

/-- A report of the current generation is accepted, and it leaves nothing pending. -/
theorem NodeInv.settled (h : NodeInv w nodeId) {report : SkillSnapshot}
    (hreport : (w.hosts nodeId).inner.lastReport = some report)
    (hcurrent : (w.hosts nodeId).inner.generation = w.db.skillGeneration nodeId) :
    w.db.applyReport (w.currentReport nodeId) = some (accepted w.db (w.currentReport nodeId)) ∧
      ∀ row ∈ w.db.desired nodeId,
        ((hubItem (accepted w.db (w.currentReport nodeId)) connected nodeId row).state = .installed ∧
          ∃ entry, (w.hosts nodeId).inner.skills.lookup row.skillName = some entry ∧
            entry.sha256 = shaOf row) ∨
        (hubItem (accepted w.db (w.currentReport nodeId)) connected nodeId row).state = .failed := by
  have hsnapshot := snapshot_of_report h.host hreport
  obtain ⟨happlied, -, -, hanswers⟩ := h.host.reported report hreport
  have hanswer := hanswers hcurrent
  have hcurrentReport : w.currentReport nodeId =
      ⟨nodeId, w.db.skillGeneration nodeId, report.skills.map reportedToProto⟩ := by
    rw [World.currentReport, toReport, hsnapshot, happlied, hcurrent]
  have hnames : ((w.currentReport nodeId).skills.map (·.name)).Nodup := by
    rw [hcurrentReport, List.map_map]
    exact hanswer.names.nodup_iff.mpr h.unique
  constructor
  · refine applyReport_accepted ?_ ?_ hnames
    · rw [hcurrentReport]
      exact maxGeneration_le h.nonneg fun row hrow => (h.actual row hrow).older
    · rw [hcurrentReport]
      refine h.desired.imp (fun hnone => ?_) (·.1)
      have hlength := hanswer.names.length_eq
      rw [hnone, List.length_map] at hlength
      rw [List.length_eq_zero_iff.mp hlength]
      rfl
  · intro row hrow
    obtain ⟨skill, hskill, hname, hsha, hstate⟩ := hanswer.each row hrow
    have hactual : actualFor (accepted w.db (w.currentReport nodeId)) nodeId row.skillName =
        some ⟨reportedToProto skill, w.db.skillGeneration nodeId⟩ := by
      have hmem : reportedToProto skill ∈ (w.currentReport nodeId).skills := by
        rw [hcurrentReport]
        exact List.mem_map_of_mem hskill
      have hfound := @actualFor_accepted w.db _ _ hnames hmem
      rw [hcurrentReport] at hfound ⊢
      exact hname ▸ hfound
    have hshown : (hubItem (accepted w.db (w.currentReport nodeId)) connected nodeId row).state =
        derivedState connected row.sha256 (w.db.skillGeneration nodeId)
          (some ⟨reportedToProto skill, w.db.skillGeneration nodeId⟩) := by
      rw [hubItem, hactual]
      rfl
    rw [hshown]
    rcases hstate with ⟨hinstalled, hentry⟩ | ⟨hfailed, -⟩
    · refine .inl ⟨if_pos ⟨?_, ?_⟩, hentry⟩
      · rw [reportedToProto, hinstalled]
        rfl
      · rw [reportedToProto, hsha]
        exact sameSha_normalSha row.sha256
    · right
      have htext : (reportedToProto skill).state = "failed" := by
        rw [reportedToProto, hfailed]
        rfl
      rw [derivedState]
      dsimp only
      rw [htext, if_neg, if_pos ⟨rfl, rfl⟩]
      exact fun h => absurd h.1 (by decide)

end

def uptimeRow : DesiredRow :=
  ⟨"uptime", "1.0.0", Skills.uptimeSha256, Package.abi, Skills.widerPackage.length, ""⟩

def uptimeMessage : DesiredSkills := buildDesired "n" 1 [uptimeRow] fun _ => ("ticket-1", [])

/-- `uptime` is desired on a node, and its desired set is sent. -/
def sentWorld : World :=
  let desired := (World.start ["n"]).desire "n" [uptimeRow]
  { desired with
    reads := [("n", 1)]
    wire := [uptimeMessage] }

/-- The node has settled it. -/
def settledWorld : World :=
  sentWorld.become "n"
    (bareHost.reconcile Skills.uptimeSetup (setFromProto uptimeMessage) Skills.serving).1

theorem settledWorld_reachable : Reachable (fun _ => Skills.uptimeSetup) ["n"] settledWorld := by
  have hdesired : Reachable (fun _ => Skills.uptimeSetup) ["n"]
      ((World.start ["n"]).desire "n" [uptimeRow]) :=
    .step _ _ .start (.desire "n" [uptimeRow] List.mem_cons_self (List.nodup_singleton _))
  have hread := Reachable.step _ _ hdesired (.readGeneration "n")
  have hsent : Reachable (fun _ => Skills.uptimeSetup) ["n"] sentWorld :=
    .step _ _ hread (.send "n" 1 (fun _ => ("ticket-1", [])) List.mem_cons_self)
  exact .step _ _ hsent (.receive uptimeMessage Skills.serving List.mem_cons_self)

/-- Until the report arrives, the skill is pending. -/
def pendingResponse : NodeSkillsResponse :=
  ⟨"n", 1, 0, Config.listSkills.map builtinItem ++ [⟨"uptime", .hub, .pending, some "1.0.0", none⟩]⟩

end Novbot.Delivery
