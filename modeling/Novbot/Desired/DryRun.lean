import Novbot.Desired.Installs

/-!
# What a dry run says

A dry run of an install, or of a bundle, reports for each skill and each node what the request then
reports, and changes no row (`dryRun_agrees`).  A refusal is audited, whether the request is a dry
run or not (`refusal_of_a_dry_run_is_audited`).
-/

namespace Novbot.Desired.Installs

open Fallible (exec_bind exec_pure exec_except exec_lift)

/-! ## What a request does -/

/-- What is reported for a skill and its nodes, but for the generations. -/
def SkillChange.report (change : SkillChange) : String × List (String × String) :=
  (change.skillName, change.perNode.map fun node => (node.nodeId, node.outcome))

def ChangeResponse.change (name : String) (response : ChangeResponse) : SkillChange :=
  ⟨name, response.operationId, response.resolutionId, response.perNode⟩

/-- The outcomes of the nodes that were written. -/
def Written (outcome : String) : Prop := outcome = "pending" ∨ outcome = "queued"

/-- The row of an operation has what was reported. -/
structure Records (row : Operation) (change : SkillChange) : Prop where
  id : change.operationId = some row.id
  skillName : change.skillName = row.skillName
  perNode : change.perNode = row.perNode

/-- What was reported was committed, and nothing else. -/
structure Commits (plans : List Accepted) (before : Ledger) (changes : List SkillChange)
    (after : Ledger) : Prop where
  written : ∀ change ∈ changes, ∀ node ∈ change.perNode, Written node.outcome →
    ∃ plan ∈ plans, plan.skillName = change.skillName ∧
      after.tables.rows change.skillName node.nodeId = some ⟨plan.version, plan.sha256⟩
  kept : ∀ skillName nodeId,
    (∀ change ∈ changes, change.skillName = skillName →
      ∀ node ∈ change.perNode, node.nodeId = nodeId → ¬ Written node.outcome) →
    after.tables.rows skillName nodeId = before.tables.rows skillName nodeId
  recorded : ∃ rows, after.operations = before.operations ++ rows ∧
    (∀ row ∈ rows, ∃ change ∈ changes, Records row change) ∧
    ∀ change ∈ changes, change.operationId ≠ none → ∃ row ∈ rows, Records row change

/-- At most the audit event of a refusal was written. -/
inductive Refused (before : Ledger) : Ledger → Prop where
  | silent : Refused before before
  | audited (kind targetId : String) (detail : Json) :
    Refused before { before with
      store := { before.store with
        rows := before.store.rows ++ [.audit "target.refused" kind targetId none detail] } }

/-- What a dry run, and the request that it stands for, come to. -/
inductive Agrees {α : Type} (changes : α → List SkillChange)
    (plans : Except DesiredError (List Accepted)) (before : Ledger) :
    Except DesiredError α × Ledger → Except DesiredError α × Ledger → Prop where
  | refused {error : DesiredError} {after : Ledger} : Refused before after →
    Agrees changes plans before (.error error, after) (.error error, after)
  | agreed {preview real : α} {after : Ledger} {accepted : List Accepted} :
    plans = .ok accepted →
    (changes preview).map (·.report) = (changes real).map (·.report) →
    Commits accepted before (changes real) after →
    Agrees changes plans before (.ok preview, before) (.ok real, after)

/-! ## Checks -/

section

variable {setup : Setup}

/-- At most the audit event of a refusal, in the store. -/
def RefusedStore (before after : Targets.Store) : Prop :=
  after = before ∨ ∃ kind targetId detail, after = { before with
    rows := before.rows ++ [.audit "target.refused" kind targetId none detail] }

theorem RefusedStore.refl (store : Targets.Store) : RefusedStore store store := .inl rfl

abbrev ChecksStore {α : Type} (x : Targets.Submit α) : Prop := Fallible.Checks RefusedStore x

theorem checks_refuse (kind targetId code : String) (selector : Option String)
    (prodNodeIds : List String) (error : Targets.TargetError) :
    ChecksStore (do
      Targets.refuse kind targetId code selector prodNodeIds
      throw error : Targets.Submit Unit) :=
  fun _ => .inr ⟨error, _, rfl, .inr ⟨kind, targetId, _, rfl⟩⟩

theorem checks_failIf {p : Prop} [Decidable p] {fail : Targets.Submit Unit} (h : ChecksStore fail) :
    ChecksStore (Targets.failIf p fail) := by
  rw [Targets.failIf]
  split
  · exact h
  · exact .pure ()

theorem checks_expected (kind targetId : String) (parsed : Targets.ParsedTarget)
    (frozen : Targets.Frozen) : ChecksStore (Targets.checkExpected kind targetId parsed frozen) := by
  rw [Targets.checkExpected]
  split
  · exact .pure ()
  · exact checks_failIf (checks_refuse _ _ _ _ _ _)

theorem checks_checkSubmit (target : Targets.TargetBody) (confirm : Option Nat)
    (kind targetId : String) :
    ChecksStore (Targets.checkSubmit setup.targets target confirm kind targetId) := by
  rw [Targets.checkSubmit]
  refine .bind (.except .refl _) fun parsed => .bind (.except .refl _) fun matched => ?_
  refine .bind (checks_expected _ _ _ _) fun _ => ?_
  refine .bind (checks_failIf (.throw .refl _)) fun _ => ?_
  refine .bind (checks_failIf (checks_refuse _ _ _ _ _ _)) fun _ => ?_
  exact .bind (checks_failIf (checks_refuse _ _ _ _ _ _)) fun _ => .pure _

theorem checks_submit {α : Type} {x : Targets.Submit α} (h : ChecksStore x) :
    Fallible.Checks Refused (submit x) := by
  refine h.onPart (fun _ => rfl) fun ledger store hstore => ?_
  rcases hstore with rfl | ⟨kind, targetId, detail, rfl⟩
  · exact .silent
  · exact .audited kind targetId detail

theorem checks_frozenAim (target : Targets.TargetBody) (confirm : Option Nat) (auditId : String) :
    Fallible.Checks Refused (frozenAim setup target confirm auditId) :=
  .bind (checks_submit (checks_checkSubmit _ _ _ _)) fun _ => .pure _

theorem checks_prepareSkillAim (body : AimBody) (auditId : String) :
    Fallible.Checks Refused (prepareSkillAim setup body auditId) := by
  rw [prepareSkillAim]
  split
  · exact checks_frozenAim _ _ _
  · split
    · exact .pure _
    · split
      · exact checks_frozenAim _ _ _
      · exact .throw (fun _ => .silent) _

theorem checks_checkedSlots (aim : SkillAim) : Fallible.Checks Refused (checkedSlots setup aim) := by
  refine .bind (.except (fun _ => .silent) _) fun slots => .bind ?_ fun _ => .pure _
  unfold guardAim
  split
  · exact .pure _
  · exact checks_submit (checks_failIf (checks_refuse _ _ _ _ _ _))

/-! ## Nodes -/

variable {nodes : List LiveNode} {selection : Selection}

theorem id_slotOf (nodes : List LiveNode) (id : String) : (slotOf nodes id).id = id := by
  rw [slotOf]
  split
  · next node hnode =>
    have hid := List.find?_some hnode
    exact eq_of_beq hid
  · rfl

/-- The ids of named slots are those that are named, once. -/
theorem namedSlots_ids (nodes : List LiveNode) (seen ids : List String) :
    ((namedSlots nodes seen ids).map Slot.id).Nodup ∧
      ∀ id ∈ (namedSlots nodes seen ids).map Slot.id, id ∈ ids ∧ id ∉ seen := by
  induction ids generalizing seen with
  | nil => exact ⟨List.nodup_nil, fun id hid => absurd hid List.not_mem_nil⟩
  | cons first ids ih =>
    rw [namedSlots]
    split
    · next hseen =>
      obtain ⟨hnodup, hids⟩ := ih seen
      exact ⟨hnodup, fun id hid => ⟨.tail _ (hids id hid).1, (hids id hid).2⟩⟩
    · next hfresh =>
      obtain ⟨hnodup, hids⟩ := ih (first :: seen)
      rw [List.map_cons, id_slotOf]
      constructor
      · refine List.nodup_cons.mpr ⟨fun hmem => ?_, hnodup⟩
        exact (hids first hmem).2 List.mem_cons_self
      · intro id hid
        rcases List.mem_cons.mp hid with rfl | hid
        · exact ⟨List.mem_cons_self, fun hmem => hfresh (List.contains_iff_mem.mpr hmem)⟩
        · obtain ⟨hnamed, hnew⟩ := hids id hid
          exact ⟨.tail _ hnamed, fun hmem => hnew (.tail _ hmem)⟩

/-- Each node of a request has one slot. -/
theorem resolve_distinct (hdistinct : (nodes.map (·.nodeId)).Nodup) :
    ((resolve nodes selection).map Slot.id).Nodup := by
  obtain ⟨hnodup, hids⟩ := namedSlots_ids nodes [] selection.nodeIds
  rw [resolve]
  cases selection.selector with
  | none => exact hnodup
  | some labels =>
    dsimp only
    rw [List.map_append, List.map_map]
    have hextra : (((nodes.filter fun node => !selection.nodeIds.contains node.nodeId &&
        labelsMatch node.labels labels).mergeSort fun left right =>
          left.nodeId ≤ right.nodeId).map (·.nodeId)).Nodup := by
      have hperm := (List.mergeSort_perm (nodes.filter fun node =>
        !selection.nodeIds.contains node.nodeId && labelsMatch node.labels labels)
        fun left right => left.nodeId ≤ right.nodeId).map (·.nodeId)
      exact hperm.nodup_iff.mpr (hdistinct.sublist (List.filter_sublist.map _))
    refine hnodup.append hextra fun id hnamed hmatched => ?_
    obtain ⟨node, hnode, rfl⟩ := List.mem_map.mp hmatched
    obtain ⟨-, hnew⟩ := List.mem_filter.mp (List.mem_mergeSort.mp hnode)
    rw [Bool.and_eq_true, Bool.not_eq_true'] at hnew
    have hmem : selection.nodeIds.contains node.nodeId = true :=
      List.contains_iff_mem.mpr (hids _ hnamed).1
    rw [hnew.1] at hmem
    cases hmem

/-- The nodes of slots that are in the table. -/
def Slot.known : Slot → Option LiveNode
  | .missing _ => none
  | .node live => some live

theorem known_distinct {slots : List Slot} (h : (slots.map Slot.id).Nodup) :
    ((slots.filterMap Slot.known).map (·.nodeId)).Nodup := by
  have hids : (slots.filterMap Slot.known).map (·.nodeId) =
      (slots.filter fun slot => !slot.isMissing).map Slot.id := by
    induction slots with
    | nil => rfl
    | cons slot slots ih =>
      have hrest := ih (List.nodup_cons.mp h).2
      cases slot with
      | missing nodeId => exact hrest
      | node live => exact congrArg (live.nodeId :: ·) hrest
  rw [hids]
  exact h.sublist (List.filter_sublist.map _)

def knownSlots (slots : List Slot) (h : (slots.map Slot.id).Nodup) : Slots :=
  ⟨slots.filterMap Slot.known, known_distinct h⟩

/-! ## Plans -/

variable {setup : Setup} {plan : InstallPlan}

/-- What is said of a slot depends on the desired version of the skill there. -/
theorem classifyInstall_report {tables tables' : Tables}
    (hrows : ∀ nodeId, tables.rows plan.skillName nodeId = tables'.rows plan.skillName nodeId)
    (write write' : Bool) (slot : Slot) :
    ((classifyInstall setup tables plan write slot).nodeId,
      (classifyInstall setup tables plan write slot).outcome) =
    ((classifyInstall setup tables' plan write' slot).nodeId,
      (classifyInstall setup tables' plan write' slot).outcome) := by
  cases slot with
  | missing nodeId => rfl
  | node live =>
    rw [classifyInstall, classifyInstall, hrows]
    split
    · rfl
    · split
      · rfl
      · split
        · rfl
        · rfl

theorem perNodes_report {tables tables' : Tables}
    (hrows : ∀ nodeId, tables.rows plan.skillName nodeId = tables'.rows plan.skillName nodeId)
    (write write' : Bool) (slots : List Slot) :
    (perNodes (slots.map (classifyInstall setup tables plan write))).map
        (fun node => (node.nodeId, node.outcome)) =
      (perNodes (slots.map (classifyInstall setup tables' plan write'))).map
        fun node => (node.nodeId, node.outcome) := by
  rw [perNodes, perNodes, List.map_map, List.map_map, List.map_map, List.map_map]
  exact List.map_congr_left fun slot _ => classifyInstall_report hrows write write' slot

/-- The outcomes of the nodes that were not written. -/
theorem not_written {outcome : String} (h : outcome ∈
    ["node_unknown", "node_too_old", "platform_unsupported", "already_installed"]) :
    ¬ Written outcome := by
  intro hwritten
  rcases hwritten with rfl | rfl
  · exact absurd h (by decide)
  · exact absurd h (by decide)

/-- The plan for a node is the one of the transaction, and it writes what it says. -/
theorem classifyInstall_node (tables : Tables) (plan : InstallPlan) (live : LiveNode) :
    let slotPlan := classifyInstall setup tables plan true (.node live)
    let nodePlan := Desired.classifyInstall setup.desired (tables.rows plan.skillName)
      tables.generation plan live
    slotPlan.nodeId = live.nodeId ∧ slotPlan.action = nodePlan.action ∧
      slotPlan.generation = nodePlan.generation ∧
      ((Written slotPlan.outcome ∧ slotPlan.action = some (.upsert ⟨plan.version, plan.sha256⟩)) ∨
        (¬ Written slotPlan.outcome ∧ slotPlan.action = none)) := by
  intro slotPlan nodePlan
  have hslot : slotPlan = classifyInstall setup tables plan true (.node live) := rfl
  have hnode : nodePlan = classifyVersion setup.desired (tables.rows plan.skillName)
    tables.generation live plan.version plan.sha256 plan.minNodeVersion plan.platforms := rfl
  rw [hslot, hnode, classifyInstall, classifyVersion]
  split
  · exact ⟨rfl, rfl, rfl, .inr ⟨not_written (by simp), rfl⟩⟩
  · split
    · exact ⟨rfl, rfl, rfl, .inr ⟨not_written (by simp), rfl⟩⟩
    · split
      · exact ⟨rfl, rfl, rfl, .inr ⟨not_written (by simp), rfl⟩⟩
      · refine ⟨rfl, rfl, rfl, .inl ⟨?_, rfl⟩⟩
        show Written (if setup.targets.connected live.nodeId then "pending" else "queued")
        split
        · exact .inl rfl
        · exact .inr rfl

/-- The statements of a request are those of its transaction. -/
theorem nodeWrites_eq {slots : List Slot} (hdistinct : (slots.map Slot.id).Nodup) (tables : Tables)
    (plan : InstallPlan) :
    nodeWrites plan.skillName (slots.map (classifyInstall setup tables plan true)) =
      installWrites setup.desired (knownSlots slots hdistinct) tables plan := by
  rw [nodeWrites, List.filterMap_map, installWrites, writesOf, List.filterMap_map, knownSlots,
    List.filterMap_filterMap]
  refine List.filterMap_congr fun slot _ => ?_
  cases slot with
  | missing nodeId => rfl
  | node live =>
    obtain ⟨hnodeId, haction, hgeneration, -⟩ := @classifyInstall_node setup tables plan live
    have hlive : (Desired.classifyInstall setup.desired (tables.rows plan.skillName)
        tables.generation plan live).nodeId = live.nodeId := counts_classifyVersion.nodeId
    rw [Slot.known, Option.bind_some, Function.comp_apply, Function.comp_apply, haction, hnodeId,
      hgeneration, hlive]

/-- What the writes of an install do: the rows of the nodes that it says it writes get the version,
and the others stay. -/
theorem rows_install {slots : List Slot} (hdistinct : (slots.map Slot.id).Nodup) (tables : Tables)
    (plan : InstallPlan) :
    let plans := slots.map (classifyInstall setup tables plan true)
    let after := applyAll (nodeWrites plan.skillName plans) tables
    (∀ slotPlan ∈ plans, Written slotPlan.outcome →
      after.rows plan.skillName slotPlan.nodeId = some ⟨plan.version, plan.sha256⟩) ∧
    ∀ skillName nodeId, (plan.skillName = skillName → ∀ slotPlan ∈ plans,
      slotPlan.nodeId = nodeId → ¬ Written slotPlan.outcome) →
      after.rows skillName nodeId = tables.rows skillName nodeId := by
  intro plans after
  have hafter : after = applyAll (writesOf plan.skillName
      ((knownSlots slots hdistinct).nodes.map (Desired.classifyInstall setup.desired
        (tables.rows plan.skillName) tables.generation plan))) tables :=
    congrArg (applyAll · tables) (nodeWrites_eq hdistinct tables plan)
  obtain ⟨hnodes, hothers⟩ := @applyAll_writesOf plan.skillName (knownSlots slots hdistinct)
    (Desired.classifyInstall setup.desired (tables.rows plan.skillName) tables.generation plan)
    (fun node => counts_classifyVersion.nodeId) tables
  rw [← hafter] at hnodes hothers
  constructor
  · intro slotPlan hplan hwritten
    obtain ⟨slot, hslot, rfl⟩ := List.mem_map.mp hplan
    cases slot with
    | missing nodeId =>
      exact absurd hwritten (not_written List.mem_cons_self)
    | node live =>
      obtain ⟨hnodeId, haction, -, hreport⟩ := @classifyInstall_node setup tables plan live
      have hupsert := (hreport.resolve_right fun h => h.1 hwritten).2
      rw [haction] at hupsert
      have hdesired := (hnodes live (List.mem_filterMap.mpr ⟨_, hslot, rfl⟩)).2
      rw [hupsert] at hdesired
      rw [hnodeId, Tables.rows, hdesired]
      show (SortedMap.insert _ plan.skillName _).lookup plan.skillName = _
      rw [SortedMap.lookup_insert, if_pos rfl]
  · intro skillName nodeId hkept
    by_cases hknown : nodeId ∈ (knownSlots slots hdistinct).nodes.map (·.nodeId)
    · obtain ⟨live, hlive, rfl⟩ := List.mem_map.mp hknown
      obtain ⟨slot, hslot, hnode⟩ := List.mem_filterMap.mp hlive
      have hdesired := (hnodes live hlive).2
      obtain ⟨hnodeId, haction, -, hreport⟩ := @classifyInstall_node setup tables plan live
      have hslot' : Slot.node live ∈ slots := by
        cases slot with
        | missing nodeId => cases hnode
        | node other =>
          cases hnode
          exact hslot
      rcases hreport with ⟨hwritten, hupsert⟩ | ⟨-, hnone⟩
      · have hname : plan.skillName ≠ skillName := fun heq =>
          hkept heq _ (List.mem_map_of_mem hslot') hnodeId hwritten
        rw [haction] at hupsert
        rw [hupsert] at hdesired
        rw [Tables.rows, hdesired]
        show (SortedMap.insert _ plan.skillName _).lookup skillName = _
        rw [SortedMap.lookup_insert, if_neg fun heq => hname heq.symm]
        rfl
      · rw [haction] at hnone
        rw [hnone] at hdesired
        rw [Tables.rows, hdesired]
        rfl
    · rw [Tables.rows, (hothers nodeId hknown).2]
      rfl

/-! ## Writes -/

theorem persist_run (skillName opType : String) (version capabilitiesSha256 : Option String)
    (force : Bool) (plans : List SlotPlan) (snapshot : Option Targets.Frozen) (ledger : Ledger) :
    ∃ operationId resolutionId after,
      (persist setup skillName opType version capabilitiesSha256 force plans snapshot).run ledger =
        ((operationId, resolutionId), after) ∧
      after.tables = applyAll (nodeWrites skillName plans) ledger.tables ∧
      after.operations = ledger.operations ++
        [⟨operationId, opType, skillName, version, perNodes plans, capabilitiesSha256, force⟩] := by
  cases snapshot with
  | none => exact ⟨_, _, _, rfl, rfl, rfl⟩
  | some frozen => exact ⟨_, _, _, rfl, rfl, rfl⟩

/-- Without a known node there is nothing to write. -/
theorem nodeWrites_nil {slots : List Slot} {tables : Tables} {plan : InstallPlan}
    (h : ¬ (slots.map (classifyInstall setup tables plan true)).any
      (fun slotPlan => slotPlan.outcome ≠ "node_unknown") = true) :
    nodeWrites plan.skillName (slots.map (classifyInstall setup tables plan true)) = [] := by
  refine List.filterMap_eq_nil_iff.mpr fun slotPlan hplan => ?_
  have hunknown : slotPlan.outcome = "node_unknown" := by
    by_contra hne
    exact h (List.any_eq_true.mpr ⟨slotPlan, hplan, decide_eq_true hne⟩)
  obtain ⟨slot, -, rfl⟩ := List.mem_map.mp hplan
  cases slot with
  | missing nodeId => rfl
  | node live =>
    obtain ⟨-, -, -, hreport⟩ := @classifyInstall_node setup tables plan live
    rcases hreport with ⟨hwritten, -⟩ | ⟨-, hnone⟩
    · rw [hunknown] at hwritten
      exact absurd hwritten (not_written List.mem_cons_self)
    · rw [hnone]
      rfl

/-- An install of one skill: what it says, what it does to the desired sets and to the
operations. -/
theorem writeInstall_run (slots : List Slot) (snapshot : Option Targets.Frozen) (plan : Accepted)
    (ledger : Ledger) :
    let plans := slots.map (classifyInstall setup ledger.tables plan.toInstallPlan true)
    ∃ operationId resolutionId rows after,
      (writeInstall setup slots snapshot plan).run ledger =
        (⟨plan.skillName, operationId, resolutionId, perNodes plans⟩, after) ∧
      after.tables = applyAll (nodeWrites plan.skillName plans) ledger.tables ∧
      after.operations = ledger.operations ++ rows ∧
      (∀ row ∈ rows, Records row ⟨plan.skillName, operationId, resolutionId, perNodes plans⟩) ∧
      (operationId ≠ none → rows ≠ []) := by
  intro plans
  have hrun : (writeInstall setup slots snapshot plan).run ledger =
      (if plans.any (·.outcome ≠ "node_unknown") = true then do
        let ids ← persist setup plan.skillName
          (if plans.any (·.otherVersion) then "upgrade" else "install") (some plan.version)
          (some plan.capabilitiesSha256) false plans snapshot
        return ⟨plan.skillName, some ids.1, ids.2, perNodes plans⟩
      else return ⟨plan.skillName, none, none, perNodes plans⟩ : StateM Ledger SkillChange).run
        ledger := rfl
  rw [hrun]
  split
  · obtain ⟨operationId, resolutionId, after, hpersist, htables, hoperations⟩ :=
      @persist_run setup plan.skillName (if plans.any (·.otherVersion) then "upgrade" else "install")
        (some plan.version) (some plan.capabilitiesSha256) false plans snapshot ledger
    refine ⟨some operationId, resolutionId, _, after, ?_, htables, hoperations, ?_, ?_⟩
    · rw [StateT.run_bind, hpersist]
      rfl
    · intro row hrow
      rw [List.mem_singleton.mp hrow]
      exact ⟨rfl, rfl, rfl⟩
    · exact fun _ => List.cons_ne_nil _ _
  · next hunknown =>
    refine ⟨none, none, [], ledger, rfl, ?_, (List.append_nil _).symm, ?_, fun h => absurd rfl h⟩
    · rw [nodeWrites_nil hunknown]
      rfl
    · exact fun row hrow => absurd hrow List.not_mem_nil

theorem mem_perNodes {plans : List SlotPlan} {node : PerNode} (h : node ∈ perNodes plans) :
    ∃ slotPlan ∈ plans, slotPlan.nodeId = node.nodeId ∧ slotPlan.outcome = node.outcome := by
  obtain ⟨slotPlan, hplan, rfl⟩ := List.mem_map.mp h
  exact ⟨slotPlan, hplan, rfl, rfl⟩

/-- The first install and the others. -/
theorem Commits.cons {plan : Accepted} {plans : List Accepted} {before mid after : Ledger}
    {change : SkillChange} {changes : List SkillChange} (hfirst : Commits [plan] before [change] mid)
    (hrest : Commits plans mid changes after)
    (hname : ∀ later ∈ changes, later.skillName ≠ change.skillName) :
    Commits (plan :: plans) before (change :: changes) after := by
  constructor
  · intro later hlater node hnode hwritten
    rcases List.mem_cons.mp hlater with rfl | hlater
    · obtain ⟨same, hsame, hskill, hrow⟩ := hfirst.written _ List.mem_cons_self node hnode hwritten
      rw [List.mem_singleton.mp hsame] at hskill hrow
      refine ⟨plan, List.mem_cons_self, hskill, ?_⟩
      rw [hrest.kept _ _ fun other hother heq => absurd heq (hname other hother), hrow]
    · obtain ⟨same, hsame, hskill, hrow⟩ := hrest.written later hlater node hnode hwritten
      exact ⟨same, .tail _ hsame, hskill, hrow⟩
  · intro skillName nodeId hkept
    rw [hrest.kept skillName nodeId fun later hlater => hkept later (.tail _ hlater)]
    refine hfirst.kept skillName nodeId fun only honly => ?_
    rw [List.mem_singleton.mp honly]
    exact hkept change List.mem_cons_self
  · obtain ⟨rows, hrows, hreported, hrecorded⟩ := hfirst.recorded
    obtain ⟨more, hmore, hreported', hrecorded'⟩ := hrest.recorded
    refine ⟨rows ++ more, ?_, fun row hrow => ?_, fun later hlater hid => ?_⟩
    · rw [hmore, hrows, List.append_assoc]
    · rcases List.mem_append.mp hrow with hrow | hrow
      · obtain ⟨only, honly, hrecords⟩ := hreported row hrow
        rw [List.mem_singleton.mp honly] at hrecords
        exact ⟨change, List.mem_cons_self, hrecords⟩
      · obtain ⟨later, hlater, hrecords⟩ := hreported' row hrow
        exact ⟨later, .tail _ hlater, hrecords⟩
    · rcases List.mem_cons.mp hlater with rfl | hlater
      · obtain ⟨row, hrow, hrecords⟩ := hrecorded _ List.mem_cons_self hid
        exact ⟨row, List.mem_append_left _ hrow, hrecords⟩
      · obtain ⟨row, hrow, hrecords⟩ := hrecorded' later hlater hid
        exact ⟨row, List.mem_append_right _ hrow, hrecords⟩

/-- The installs of a request report what a preview of it reports, and commit it. -/
theorem writeInstalls_commits {slots : List Slot} (hdistinct : (slots.map Slot.id).Nodup)
    (snapshot : Option Targets.Frozen) {plans : List Accepted}
    (hplans : (plans.map (·.skillName)).Nodup) (ledger : Ledger) :
    ∃ changes after, (writeInstalls setup slots snapshot plans).run ledger = (changes, after) ∧
      (previewInstalls setup ledger.tables plans slots).map (·.report) = changes.map (·.report) ∧
      Commits plans ledger changes after ∧
      after.tables = afterInstalls setup.desired (knownSlots slots hdistinct)
        (plans.map (·.toInstallPlan)) ledger.tables := by
  induction plans generalizing ledger with
  | nil =>
    refine ⟨[], ledger, rfl, rfl, ⟨?_, fun _ _ _ => rfl, [], ?_, ?_, ?_⟩, rfl⟩
    · exact fun change hchange => absurd hchange List.not_mem_nil
    · exact (List.append_nil _).symm
    · exact fun row hrow => absurd hrow List.not_mem_nil
    · exact fun change hchange => absurd hchange List.not_mem_nil
  | cons plan plans ih =>
    obtain ⟨hfresh, hplans⟩ := List.nodup_cons.mp hplans
    obtain ⟨operationId, resolutionId, rows, mid, hfirst, htables, hoperations, hrecords, hrows⟩ :=
      @writeInstall_run setup slots snapshot plan ledger
    obtain ⟨changes, after, hrest, hreport, hcommits, htables'⟩ := ih hplans mid
    obtain ⟨hwritten, hkept⟩ := @rows_install setup slots hdistinct ledger.tables plan.toInstallPlan
    rw [← htables] at hwritten hkept
    -- the first install leaves the rows of the other skills
    have hothers : ∀ later ∈ plans, ∀ nodeId,
        mid.tables.rows later.skillName nodeId = ledger.tables.rows later.skillName nodeId :=
      fun later hlater nodeId => hkept later.skillName nodeId fun heq =>
        absurd (List.mem_map.mpr ⟨later, hlater, heq.symm⟩) hfresh
    have hpreview : (previewInstalls setup ledger.tables plans slots).map (·.report) =
        (previewInstalls setup mid.tables plans slots).map (·.report) := by
      rw [previewInstalls, previewInstalls, List.map_map, List.map_map]
      refine List.map_congr_left fun later hlater => ?_
      exact congrArg (later.skillName, ·)
        (perNodes_report (fun nodeId => (hothers later hlater nodeId).symm) _ _ _)
    have hnames : changes.map (·.skillName) = plans.map (·.skillName) := by
      have hmap := congrArg (List.map Prod.fst) hreport
      rw [List.map_map, List.map_map, previewInstalls, List.map_map] at hmap
      exact hmap.symm
    let first : SkillChange := ⟨plan.skillName, operationId, resolutionId,
      perNodes (slots.map (classifyInstall setup ledger.tables plan.toInstallPlan true))⟩
    refine ⟨first :: changes, after, ?_, ?_, ?_, ?_⟩
    · rw [writeInstalls, StateT.run_bind, hfirst]
      show StateT.run (writeInstalls setup slots snapshot plans >>= _) mid = _
      rw [StateT.run_bind, hrest]
      rfl
    · rw [previewInstalls, List.map_cons, List.map_cons, List.map_cons]
      refine congrArg₂ List.cons ?_ (hpreview.trans hreport)
      exact congrArg (plan.skillName, ·) (perNodes_report (fun _ => rfl) _ _ _)
    · refine .cons ⟨?_, ?_, rows, hoperations, ?_, ?_⟩ hcommits ?_
      · intro change hchange node hnode hnow
        rw [List.mem_singleton.mp hchange] at hnode ⊢
        obtain ⟨slotPlan, hplan, hnodeId, houtcome⟩ := mem_perNodes hnode
        rw [← houtcome] at hnow
        refine ⟨plan, List.mem_singleton_self plan, rfl, ?_⟩
        rw [← hnodeId]
        exact hwritten slotPlan hplan hnow
      · intro skillName nodeId hunwritten
        refine hkept skillName nodeId fun heq slotPlan hplan hnodeId => ?_
        exact hunwritten _ (List.mem_singleton_self _) heq _ (List.mem_map_of_mem hplan) hnodeId
      · exact fun row hrow => ⟨_, List.mem_singleton_self _, hrecords row hrow⟩
      · intro change hchange hid
        rw [List.mem_singleton.mp hchange] at hid ⊢
        obtain ⟨row, hrow⟩ := List.exists_mem_of_ne_nil _ (hrows hid)
        exact ⟨row, hrow, hrecords row hrow⟩
      · intro later hlater heq
        refine hfresh ?_
        rw [← hnames]
        exact List.mem_map.mpr ⟨later, hlater, heq⟩
    · rw [htables', htables, nodeWrites_eq hdistinct]
      rfl

end

/-! ## Requests -/

theorem targetViews_report (tables tables' : Tables) (slots : List Slot) :
    (targetViews tables slots).map (fun view => (view.nodeId, view.found)) =
      (targetViews tables' slots).map fun view => (view.nodeId, view.found) := by
  rw [targetViews, targetViews, List.map_map, List.map_map]
  refine List.map_congr_left fun slot _ => ?_
  cases slot with
  | missing nodeId => rfl
  | node live => rfl

/-- Where every node is missing, or nothing is to be installed, a preview is all there is. -/
theorem commits_preview {slots : List Slot} {plans : List Accepted}
    (h : slots.all (·.isMissing) = true ∨ plans = []) (ledger : Ledger) :
    Commits plans ledger (previewInstalls setup ledger.tables plans slots) ledger := by
  have hunwritten : ∀ change ∈ previewInstalls setup ledger.tables plans slots,
      ∀ node ∈ change.perNode, ¬ Written node.outcome := by
    intro change hchange node hnode
    obtain ⟨plan, hplan, rfl⟩ := List.mem_map.mp hchange
    rcases h with hmissing | rfl
    · obtain ⟨slotPlan, hslotPlan, -, houtcome⟩ := mem_perNodes hnode
      obtain ⟨slot, hslot, rfl⟩ := List.mem_map.mp hslotPlan
      have hslot := List.all_eq_true.mp hmissing slot hslot
      rw [← houtcome]
      cases slot with
      | missing nodeId => exact not_written List.mem_cons_self
      | node live => cases hslot
    · exact absurd hplan List.not_mem_nil
  refine ⟨?_, fun _ _ _ => rfl, [], (List.append_nil _).symm, ?_, ?_⟩
  · exact fun change hchange node hnode hwritten => absurd hwritten (hunwritten change hchange node hnode)
  · exact fun row hrow => absurd hrow List.not_mem_nil
  · intro change hchange hid
    obtain ⟨plan, -, rfl⟩ := List.mem_map.mp hchange
    exact absurd rfl hid

theorem known_nil {slots : List Slot} (h : slots.all (·.isMissing) = true) :
    slots.filterMap Slot.known = [] := by
  refine List.filterMap_eq_nil_iff.mpr fun slot hslot => ?_
  have hmissing := List.all_eq_true.mp h slot hslot
  cases slot with
  | missing nodeId => rfl
  | node live => cases hmissing

theorem previewOrWrite_run (plans : List Accepted) (slots : List Slot)
    (snapshot : Option Targets.Frozen) (dryRun : Bool) (ledger : Ledger) :
    (previewOrWrite setup plans slots snapshot dryRun).run ledger =
      if readOnly plans slots dryRun then (previewInstalls setup ledger.tables plans slots, ledger)
      else (writeInstalls setup slots snapshot plans).run ledger := by
  rw [previewOrWrite]
  cases readOnly plans slots dryRun with
  | true => rfl
  | false => rfl

/-- After the checks: a preview, and the installs, which leave the desired sets as the transaction
does. -/
theorem changeInstalls_commits {slots : List Slot} (hdistinct : (slots.map Slot.id).Nodup)
    (snapshot : Option Targets.Frozen) {plans : List Accepted}
    (hplans : (plans.map (·.skillName)).Nodup) (ledger : Ledger) :
    ∃ preview real after,
      (changeInstalls setup plans slots snapshot true).run ledger = (preview, ledger) ∧
      (changeInstalls setup plans slots snapshot false).run ledger = (real, after) ∧
      preview.changes.map (·.report) = real.changes.map (·.report) ∧
      preview.targets.map (fun view => (view.nodeId, view.found)) =
        real.targets.map (fun view => (view.nodeId, view.found)) ∧
      real.changes.map (·.skillName) = plans.map (·.skillName) ∧
      Commits plans ledger real.changes after ∧
      after.tables = afterInstalls setup.desired (knownSlots slots hdistinct)
        (plans.map (·.toInstallPlan)) ledger.tables := by
  let preview : BatchResult :=
    ⟨previewInstalls setup ledger.tables plans slots, targetViews ledger.tables slots⟩
  have hnames : preview.changes.map (·.skillName) = plans.map (·.skillName) := List.map_map
  cases hread : readOnly plans slots false with
  | true =>
    have hreal : (changeInstalls setup plans slots snapshot false).run ledger = (preview, ledger) := by
      rw [changeInstalls, StateT.run_bind, previewOrWrite_run, hread]
      rfl
    rw [readOnly, Bool.false_or, Bool.or_eq_true, List.isEmpty_iff] at hread
    refine ⟨preview, preview, ledger, rfl, hreal, rfl, rfl, hnames, commits_preview hread ledger, ?_⟩
    rcases hread with hmissing | rfl
    · exact (afterInstalls_of_isEmpty (known_nil hmissing) _ _).symm
    · rfl
  | false =>
    obtain ⟨changes, after, hrun, hreport, hcommits, htables⟩ :=
      @writeInstalls_commits setup slots hdistinct snapshot plans hplans ledger
    refine ⟨preview, ⟨changes, targetViews after.tables slots⟩, after, rfl, ?_, hreport,
      targetViews_report _ _ _, ?_, hcommits, htables⟩
    · rw [changeInstalls, StateT.run_bind, previewOrWrite_run, hread]
      show StateT.run _ (StateT.run (writeInstalls setup slots snapshot plans) ledger).2 = _
      rw [hrun]
      rfl
    · have hmap := congrArg (List.map Prod.fst) hreport
      rw [List.map_map, List.map_map] at hmap
      exact hmap.symm.trans hnames

theorem checkedSlots_ok {aim : SkillAim} {slots : List Slot} {ledger after : Ledger}
    (h : Fallible.exec (checkedSlots setup aim) ledger = (.ok slots, after)) :
    slots = resolve setup.nodes aim.selection := by
  rw [checkedSlots, exec_bind, exec_except] at h
  cases hprepare : prepare setup aim.selection with
  | error error =>
    rw [hprepare] at h
    cases h
  | ok prepared =>
    rw [hprepare] at h
    dsimp only at h
    rw [exec_bind] at h
    have hslots : slots = prepared := by
      split at h
      · exact (Except.ok.inj (Prod.mk.inj h).1).symm
      · cases h
    rw [prepare] at hprepare
    dsimp only at hprepare
    split at hprepare
    · cases hprepare
    · split at hprepare
      · cases hprepare
      · exact hslots.trans (Except.ok.inj hprepare).symm

/-- A request is refused like its dry run, or it commits what the dry run reports. -/
theorem applyInstalls_agrees {plans : List Accepted} (hplans : (plans.map (·.skillName)).Nodup)
    (aim : SkillAim) (ledger : Ledger) :
    (∃ error after, Refused ledger after ∧
      ∀ dryRun, Fallible.exec (applyInstalls setup plans aim dryRun) ledger = (.error error, after)) ∨
    ∃ preview real after,
      Fallible.exec (applyInstalls setup plans aim true) ledger = (.ok preview, ledger) ∧
      Fallible.exec (applyInstalls setup plans aim false) ledger = (.ok real, after) ∧
      preview.changes.map (·.report) = real.changes.map (·.report) ∧
      preview.targets.map (fun view => (view.nodeId, view.found)) =
        real.targets.map (fun view => (view.nodeId, view.found)) ∧
      real.changes.map (·.skillName) = plans.map (·.skillName) ∧
      Commits plans ledger real.changes after := by
  rcases @checks_checkedSlots setup aim ledger with ⟨slots, hslots⟩ | ⟨error, after, herror, hrefused⟩
  · right
    have hdistinct : (slots.map Slot.id).Nodup := by
      rw [checkedSlots_ok hslots]
      exact resolve_distinct setup.distinct
    obtain ⟨preview, real, after, hpreview, hreal, hreport, htargets, hnames, hcommits, -⟩ :=
      @changeInstalls_commits setup slots hdistinct aim.snapshot plans hplans ledger
    refine ⟨preview, real, after, ?_, ?_, hreport, htargets, hnames, hcommits⟩
    · rw [applyInstalls, exec_bind, hslots]
      dsimp only
      rw [exec_lift, hpreview]
    · rw [applyInstalls, exec_bind, hslots]
      dsimp only
      rw [exec_lift, hreal]
  · left
    refine ⟨error, after, hrefused, fun dryRun => ?_⟩
    rw [applyInstalls, exec_bind, herror]

/-- A request with its plans: it is refused, or it goes on with the changes. -/
theorem aimed_agrees {plans : List Accepted} (hplans : (plans.map (·.skillName)).Nodup)
    (body : AimBody) (auditId : String) (ledger : Ledger) :
    (∃ error after, Refused ledger after ∧ ∀ {α : Type} (f : BatchResult → Request α) dryRun,
      Fallible.exec (prepareSkillAim setup body auditId >>= fun aim =>
        applyInstalls setup plans aim dryRun >>= f) ledger = (.error error, after)) ∨
    ∃ preview real after,
      (∀ {α : Type} (f : BatchResult → Request α),
        Fallible.exec (prepareSkillAim setup body auditId >>= fun aim =>
          applyInstalls setup plans aim true >>= f) ledger = Fallible.exec (f preview) ledger) ∧
      (∀ {α : Type} (f : BatchResult → Request α),
        Fallible.exec (prepareSkillAim setup body auditId >>= fun aim =>
          applyInstalls setup plans aim false >>= f) ledger = Fallible.exec (f real) after) ∧
      preview.changes.map (·.report) = real.changes.map (·.report) ∧
      preview.targets.map (fun view => (view.nodeId, view.found)) =
        real.targets.map (fun view => (view.nodeId, view.found)) ∧
      real.changes.map (·.skillName) = plans.map (·.skillName) ∧
      Commits plans ledger real.changes after := by
  rcases @checks_prepareSkillAim setup body auditId ledger with
    ⟨aim, haim⟩ | ⟨error, after, herror, hrefused⟩
  · rcases @applyInstalls_agrees setup plans hplans aim ledger with
      ⟨error, after, hrefused, herror⟩ | ⟨preview, real, after, hpreview, hreal, hagrees⟩
    · refine .inl ⟨error, after, hrefused, fun f dryRun => ?_⟩
      rw [exec_bind, haim]
      dsimp only
      rw [exec_bind, herror]
    · refine .inr ⟨preview, real, after, fun f => ?_, fun f => ?_, hagrees⟩
      · rw [exec_bind, haim]
        dsimp only
        rw [exec_bind, hpreview]
      · rw [exec_bind, haim]
        dsimp only
        rw [exec_bind, hreal]
  · refine .inl ⟨error, after, hrefused, fun f dryRun => ?_⟩
    rw [exec_bind, herror]

theorem skillName_of_installPlan {name : String} {body : InstallRequest} {plan : Accepted}
    (h : installPlan setup name body = .ok plan) : plan.skillName = name := by
  rw [installPlan] at h
  simp only [Check.throw_bind, Check.ite_throw_eq_ok, Check.bind_eq_ok, Check.pure_eq_ok] at h
  obtain ⟨-, -, -, -, -, -, -, -, rfl⟩ := h
  rfl

theorem install_run (name : String) (body : InstallRequest) (dryRun : Bool) (ledger : Ledger) :
    Fallible.exec (install setup name { body with
        dryRun := dryRun }) ledger =
      match installPlan setup name body with
      | .error error => (.error error, ledger)
      | .ok plan => Fallible.exec (prepareSkillAim setup body.aim name >>= fun aim =>
          applyInstalls setup [plan] aim dryRun >>= fun batch =>
            liftM (installResponse dryRun batch)) ledger := by
  have hcatalog : installPlan setup name { body with
      dryRun := dryRun } = installPlan setup name body := rfl
  rw [install, exec_bind, exec_except, hcatalog]
  cases installPlan setup name body with
  | error error => rfl
  | ok plan => rfl

theorem install_agrees (name : String) (body : InstallRequest) (ledger : Ledger) :
    Agrees (fun response => [response.change name])
      ((installPlan setup name body).map fun plan => [plan]) ledger
      (Fallible.exec (install setup name { body with
        dryRun := true }) ledger)
      (Fallible.exec (install setup name { body with
        dryRun := false }) ledger) := by
  rw [install_run, install_run]
  cases hplan : installPlan setup name body with
  | error error => exact .refused .silent
  | ok plan =>
    dsimp only
    rcases @aimed_agrees setup [plan] (List.nodup_singleton _) body.aim name ledger with
      ⟨error, after, hrefused, herror⟩ | ⟨preview, real, after, hpreview, hreal, hreport, -, hnames, hcommits⟩
    · rw [herror, herror]
      exact .refused hrefused
    · rw [hpreview, hreal]
      obtain ⟨changes, targets⟩ := real
      obtain ⟨previewed, targets'⟩ := preview
      dsimp only at hreport hnames hcommits
      obtain ⟨change, rfl, hname⟩ := List.map_eq_singleton_iff.mp hnames
      obtain ⟨said, rfl, hsaid⟩ := List.map_eq_singleton_iff.mp hreport
      have hskill : change.skillName = name := hname.trans (skillName_of_installPlan hplan)
      have hskill' : said.skillName = name := (congrArg Prod.fst hsaid).trans hskill
      obtain ⟨_, operationId, resolutionId, perNode⟩ := change
      obtain ⟨_, operationId', resolutionId', perNode'⟩ := said
      cases hskill
      cases hskill'
      exact .agreed rfl (congrArg (fun report => [report]) hsaid) hcommits

/-! ## Bundles -/

theorem skillNames_of_bundlePlans {acceptedCapabilities : String → Option String}
    {items : List BundleItem} {plans : List Accepted}
    (h : bundlePlans setup acceptedCapabilities items = .ok plans) :
    plans.map (·.skillName) =
      (items.map (·.skillName)).filter fun name => name ∉ Catalog.reservedNames := by
  induction items generalizing plans with
  | nil =>
    cases h
    rfl
  | cons item items ih =>
    rw [bundlePlans] at h
    rw [List.map_cons, List.filter_cons]
    split at h
    · next hreserved =>
      rw [if_neg (by simpa using hreserved)]
      exact ih h
    · next hskill =>
      rw [if_pos (by simpa using hskill)]
      simp only [Check.bind_eq_ok, Check.pure_eq_ok] at h
      obtain ⟨row, -, capabilitiesSha256, -, rest, hrest, rfl⟩ := h
      exact congrArg (item.skillName :: ·) (ih hrest)

/-- What is added to the changes of a request, or left out of them, was not written. -/
theorem Commits.mono {plans : List Accepted} {before after : Ledger}
    {changes operations : List SkillChange} (h : Commits plans before changes after)
    (hall : ∀ change ∈ changes, change ∈ operations)
    (honly : ∀ operation ∈ operations, operation ∈ changes ∨
      (operation.operationId = none ∧ ∀ node ∈ operation.perNode, ¬ Written node.outcome)) :
    Commits plans before operations after := by
  obtain ⟨rows, hrows, hreported, hrecorded⟩ := h.recorded
  refine ⟨?_, ?_, rows, hrows, ?_, ?_⟩
  · intro operation hoperation node hnode hwritten
    rcases honly operation hoperation with hchange | ⟨-, hunwritten⟩
    · exact h.written operation hchange node hnode hwritten
    · exact absurd hwritten (hunwritten node hnode)
  · exact fun skillName nodeId hkept =>
      h.kept skillName nodeId fun change hchange => hkept change (hall change hchange)
  · intro row hrow
    obtain ⟨change, hchange, hrecords⟩ := hreported row hrow
    exact ⟨change, hall change hchange, hrecords⟩
  · intro operation hoperation hid
    rcases honly operation hoperation with hchange | ⟨hnone, -⟩
    · exact hrecorded operation hchange hid
    · exact absurd hnone hid

section

variable {preview real : BatchResult}

theorem bundleOperation_report
    (hreport : preview.changes.map (·.report) = real.changes.map (·.report))
    (htargets : preview.targets.map (fun view => (view.nodeId, view.found)) =
      real.targets.map (fun view => (view.nodeId, view.found))) (item : BundleItem) :
    (bundleOperation preview item).map (·.report) = (bundleOperation real item).map (·.report) := by
  have hfind := congrArg (List.find? fun report => report.1 == item.skillName) hreport
  rw [List.find?_map, List.find?_map] at hfind
  have hbuiltin : (builtinPerNode preview.targets).map (fun node => (node.nodeId, node.outcome)) =
      (builtinPerNode real.targets).map fun node => (node.nodeId, node.outcome) := by
    have hmap := congrArg (List.map fun view : String × Bool =>
      (view.1, if view.2 then "already_installed" else "node_unknown")) htargets
    rw [List.map_map, List.map_map] at hmap
    rw [builtinPerNode, builtinPerNode, List.map_map, List.map_map]
    exact hmap
  have hfind' : (preview.changes.find? (·.skillName == item.skillName)).map (·.report) =
      (real.changes.find? (·.skillName == item.skillName)).map (·.report) := hfind
  rw [bundleOperation, bundleOperation]
  cases hleft : preview.changes.find? (·.skillName == item.skillName) with
  | none =>
    rw [hleft] at hfind'
    rw [Option.map_eq_none_iff.mp hfind'.symm]
    dsimp only
    split
    · exact congrArg (fun perNode => some (item.skillName, perNode)) hbuiltin
    · rfl
  | some change =>
    rw [hleft] at hfind'
    cases hright : real.changes.find? (·.skillName == item.skillName) with
    | none =>
      rw [hright] at hfind'
      cases hfind'
    | some other =>
      rw [hright] at hfind'
      exact hfind'

/-- The operations of a bundle are its changes, and nothing for the built-in skills. -/
theorem bundleOperations_changes {items : List BundleItem}
    (hnodup : (real.changes.map (·.skillName)).Nodup)
    (hnames : ∀ name ∈ real.changes.map (·.skillName), name ∈ items.map (·.skillName)) :
    (∀ change ∈ real.changes, change ∈ items.filterMap (bundleOperation real)) ∧
    ∀ operation ∈ items.filterMap (bundleOperation real), operation ∈ real.changes ∨
      (operation.operationId = none ∧ ∀ node ∈ operation.perNode, ¬ Written node.outcome) := by
  constructor
  · intro change hchange
    obtain ⟨item, hitem, hname⟩ := List.mem_map.mp (hnames _ (List.mem_map_of_mem hchange))
    refine List.mem_filterMap.mpr ⟨item, hitem, ?_⟩
    rw [bundleOperation]
    cases hfind : real.changes.find? (·.skillName == item.skillName) with
    | none =>
      have hother := List.find?_eq_none.mp hfind change hchange
      exact absurd (beq_iff_eq.mpr hname.symm) hother
    | some found =>
      have hfound : found.skillName = item.skillName := by
        have hsome := List.find?_some hfind
        exact eq_of_beq hsome
      have hsame : found = change := List.inj_on_of_nodup_map hnodup
        (List.mem_of_find?_eq_some hfind) hchange (hfound.trans hname)
      rw [hsame]
  · intro operation hoperation
    obtain ⟨item, -, hitem⟩ := List.mem_filterMap.mp hoperation
    rw [bundleOperation] at hitem
    split at hitem
    · next change hfind =>
      cases hitem
      exact .inl (List.mem_of_find?_eq_some hfind)
    · split at hitem
      · cases hitem
        refine .inr ⟨rfl, fun node hnode => ?_⟩
        obtain ⟨view, -, rfl⟩ := List.mem_map.mp hnode
        dsimp only
        split
        · exact not_written (by simp)
        · exact not_written (by simp)
      · cases hitem

end

/-- The plans of a bundle. -/
def catalogPlans (setup : Setup) (id : String) (body : BundleInstallRequest) :
    Except DesiredError (List Accepted) := do
  let bundle ← getBundle setup id
  bundlePlans setup body.acceptedCapabilities bundle.items

theorem installBundle_run (id : String) (body : BundleInstallRequest) (dryRun : Bool)
    (ledger : Ledger) :
    Fallible.exec (installBundle setup id { body with
        dryRun := dryRun }) ledger =
      match getBundle setup id with
      | .error error => (.error error, ledger)
      | .ok bundle =>
        match bundlePlans setup body.acceptedCapabilities bundle.items with
        | .error error => (.error error, ledger)
        | .ok plans => Fallible.exec (prepareSkillAim setup body.aim id >>= fun aim =>
            applyInstalls setup plans aim dryRun >>= fun batch =>
              pure (bundle.items.filterMap (bundleOperation batch))) ledger := by
  rw [installBundle, exec_bind, exec_except]
  cases getBundle setup id with
  | error error => rfl
  | ok bundle =>
    dsimp only
    rw [exec_bind, exec_except]
    cases bundlePlans setup body.acceptedCapabilities bundle.items with
    | error error => rfl
    | ok plans => rfl

theorem installBundle_agrees (id : String) (body : BundleInstallRequest) (ledger : Ledger) :
    Agrees (fun operations => operations) (catalogPlans setup id body) ledger
      (Fallible.exec (installBundle setup id { body with
        dryRun := true }) ledger)
      (Fallible.exec (installBundle setup id { body with
        dryRun := false }) ledger) := by
  rw [installBundle_run, installBundle_run]
  cases hbundle : getBundle setup id with
  | error error => exact .refused .silent
  | ok bundle =>
    dsimp only
    cases hplans : bundlePlans setup body.acceptedCapabilities bundle.items with
    | error error => exact .refused .silent
    | ok plans =>
      dsimp only
      have hskills := skillNames_of_bundlePlans hplans
      have hnodup : (plans.map (·.skillName)).Nodup := by
        rw [hskills]
        exact bundle.distinct.filter _
      rcases @aimed_agrees setup plans hnodup body.aim id ledger with
        ⟨error, after, hrefused, herror⟩ |
        ⟨preview, real, after, hpreview, hreal, hreport, htargets, hnames, hcommits⟩
      · rw [herror, herror]
        exact .refused hrefused
      · rw [hpreview, hreal, exec_pure, exec_pure]
        have haccepted : catalogPlans setup id body = .ok plans := by
          rw [catalogPlans, hbundle]
          exact hplans
        refine .agreed haccepted ?_ ?_
        · rw [List.map_filterMap, List.map_filterMap]
          exact List.filterMap_congr fun item _ => bundleOperation_report hreport htargets item
        · rw [← hnames] at hnodup
          obtain ⟨hall, honly⟩ := @bundleOperations_changes real bundle.items hnodup fun name hname => by
            rw [hnames, hskills] at hname
            exact (List.mem_filter.mp hname).1
          exact hcommits.mono hall honly

/-- The desired sets after a request are those that its transaction leaves when no other comes in
between. -/
theorem changeInstalls_refines {slots : List Slot} (hdistinct : (slots.map Slot.id).Nodup)
    (snapshot : Option Targets.Frozen) {plans : List Accepted}
    (hplans : (plans.map (·.skillName)).Nodup) (dryRun : Bool) (ledger : Ledger) {t : Nat}
    {center : Center} (hfree : center.Free t) (htables : center.tables = ledger.tables) :
    ∃ center', (Desired.applyInstalls setup.desired (plans.map (·.toInstallPlan))
        (knownSlots slots hdistinct) dryRun).alone (Desired.exec t) center = some ((), center') ∧
      center'.tables = ((changeInstalls setup plans slots snapshot dryRun).run ledger).2.tables := by
  obtain ⟨center', hrun, hafter⟩ := alone_applyInstalls setup.desired
    (plans.map (·.toInstallPlan)) (knownSlots slots hdistinct) dryRun hfree
  refine ⟨center', hrun, hafter.trans ?_⟩
  obtain ⟨preview, real, after, hpreview, hreal, -, -, -, -, hinstalled⟩ :=
    @changeInstalls_commits setup slots hdistinct snapshot plans hplans ledger
  cases dryRun with
  | true =>
    rw [hpreview]
    exact htables
  | false =>
    rw [hreal, htables]
    exact hinstalled.symm

/-- Of every catalog, every desired state, every inventory and every request to install a skill or
a bundle: a dry run is refused like the request, and at most the audit event of the refusal is
written, or it changes nothing and reports for each skill and node what the request reports and
commits. -/
theorem dryRun_agrees (setup : Setup) :
    (∀ name (body : InstallRequest) ledger, Agrees (fun response => [response.change name])
      ((installPlan setup name body).map fun plan => [plan]) ledger
      (Fallible.exec (install setup name { body with
        dryRun := true }) ledger)
      (Fallible.exec (install setup name { body with
        dryRun := false }) ledger)) ∧
    ∀ id (body : BundleInstallRequest) ledger, Agrees (fun operations => operations)
      (catalogPlans setup id body) ledger
      (Fallible.exec (installBundle setup id { body with
        dryRun := true }) ledger)
      (Fallible.exec (installBundle setup id { body with
        dryRun := false }) ledger) :=
  ⟨install_agrees, installBundle_agrees⟩

/-- One skill, and one node, which is in production. -/
def production : Setup where
  desired := ⟨fun _ => none⟩
  targets := ⟨[⟨"web-1", .empty, true⟩], fun _ => true, fun _ => "", fun _ => "", fun _ => none,
    fun _ => ""⟩
  matching _ _ := false
  versions _ := some [⟨"1.0.0", "ab", "published", none, [], "cd"⟩]
  bundles _ := none
  nodes := [⟨"web-1", "1.0.0", []⟩]
  distinct := List.nodup_singleton _

/-- A dry run for a production node, without its confirmation. -/
def unconfirmed : InstallRequest := ⟨"1.0.0", ⟨["web-1"], none, none, none⟩, some "cd", true⟩

/-- The refusal of a dry run is audited. -/
theorem refusal_of_a_dry_run_is_audited : ¬ ∀ setup name (body : InstallRequest) ledger,
    body.dryRun = true → (Fallible.exec (install setup name body) ledger).2 = ledger := by
  intro h
  have hrows : (Fallible.exec (install production "nginx-check" unconfirmed)
      ⟨.initial, [], ⟨[], 0⟩⟩).2.store.rows.length = 1 := by decide +kernel
  rw [h production "nginx-check" unconfirmed ⟨.initial, [], ⟨[], 0⟩⟩ rfl] at hrows
  cases hrows

end Novbot.Desired.Installs
