import Novbot.Desired.Center
import Mathlib.Data.List.Nodup

/-!
# One request at a time

What a rollback and an install leave in the tables when no other request comes in between.
`alone_rollback` and `alone_applyInstalls` compute it from the tables that the request finds.
-/

namespace Novbot.Desired

open Concurrent

/-- The writes of plans. -/
def writesOf (skillName : String) (plans : List NodePlan) : List NodeWrite :=
  plans.filterMap fun plan => plan.action.map fun action =>
    ⟨plan.nodeId, skillName, action, plan.generation⟩

/-- The desired row of a skill on each node. -/
def Tables.rows (tables : Tables) (skillName nodeId : String) : Option Row :=
  (tables.desired nodeId).lookup skillName

/-- The plans write, if they do, a version. -/
def Upserts (plans : List NodePlan) : Prop :=
  ∀ plan ∈ plans, ∀ action, plan.action = some action → ∃ row, action = .upsert row

/-- The row of a node after its plan. -/
def NodePlan.rowAfter (plan : NodePlan) (row : Option Row) : Option Row :=
  match plan.action with
  | some (.upsert written) => some written
  | _ => row

section

variable (setup : Setup)

/-- The tables after a rollback without a version. -/
def rolledBack (skillName : String) (versions : List VersionRecord) (slots : Slots)
    (tables : Tables) : Tables :=
  applyAll (writesOf skillName (slots.nodes.map
    (classifyRollback setup (tables.rows skillName) tables.generation none versions))) tables

/-- The writes of an install of one skill. -/
def installWrites (slots : Slots) (tables : Tables) (plan : InstallPlan) : List NodeWrite :=
  writesOf plan.skillName
    (slots.nodes.map (classifyInstall setup (tables.rows plan.skillName) tables.generation plan))

/-- The tables after the installs of a request. -/
def afterInstalls (slots : Slots) (plans : List InstallPlan) (tables : Tables) : Tables :=
  plans.foldl (fun tables plan => applyAll (installWrites setup slots tables plan) tables) tables

end

/-! ## A transaction -/

section

variable {setup : Setup} {center : Center} {t : Nat} {tx : Tx} {skillName : String}

theorem applyAll_append (writes more : List NodeWrite) (tables : Tables) :
    applyAll (writes ++ more) tables = applyAll more (applyAll writes tables) :=
  List.foldl_append

/-- The transaction has written more. -/
def Center.wrote (center : Center) (t : Nat) (tx : Tx) (writes : List NodeWrite) : Center :=
  { center with
    txs := Function.update center.txs t (some { tx with writes := tx.writes ++ writes }) }

theorem wrote_txs (center : Center) (tx : Tx) (writes : List NodeWrite) :
    (center.wrote t tx writes).txs t = some { tx with writes := tx.writes ++ writes } :=
  Function.update_self _ _ _

theorem wrote_nil (h : center.txs t = some tx) : center.wrote t tx [] = center := by
  rw [Center.wrote, List.append_nil]
  show { center with txs := Function.update center.txs t (some tx) } = center
  rw [← h, Function.update_eq_self]

theorem wrote_wrote (center : Center) (tx : Tx) (writes more : List NodeWrite) :
    (center.wrote t tx writes).wrote t { tx with writes := tx.writes ++ writes } more =
      center.wrote t tx (writes ++ more) := by
  simp only [Center.wrote, Function.update_idem, List.append_assoc]

theorem exec_upsert (h : center.txs t = some tx) (nodeId : String) (row : Row) (generation : Int) :
    exec t (.write ⟨nodeId, skillName, .upsert row, generation⟩) center =
      some ((), center.wrote t tx [⟨nodeId, skillName, .upsert row, generation⟩]) := by
  rw [exec, h, Option.map_some]
  rfl

theorem upserts_cons {plan : NodePlan} {plans : List NodePlan} (h : Upserts (plan :: plans)) :
    Upserts plans := fun later hmem => h later (.tail _ hmem)

/-- The statements for the nodes, one after the other. -/
theorem alone_persistNodes {plans : List NodePlan} (hups : Upserts plans)
    (h : center.txs t = some tx) :
    (persistNodes skillName plans).alone (exec t) center =
      some ((), center.wrote t tx (writesOf skillName plans)) := by
  induction plans generalizing center tx with
  | nil => exact congrArg (fun center => some ((), center)) (wrote_nil h).symm
  | cons plan plans ih =>
    rw [persistNodes, writesOf, List.filterMap_cons]
    cases haction : plan.action with
    | none => exact ih (upserts_cons hups) h
    | some action =>
      obtain ⟨row, rfl⟩ := hups plan List.mem_cons_self action haction
      have hwrite : (call (.write ⟨plan.nodeId, skillName, .upsert row, plan.generation⟩)).alone
          (exec t) center =
            some ((), center.wrote t tx [⟨plan.nodeId, skillName, .upsert row, plan.generation⟩]) :=
        Program.alone_perform (exec_upsert h plan.nodeId row plan.generation)
      rw [Program.alone_bind hwrite, ih (upserts_cons hups) (wrote_txs _ _ _), wrote_wrote]
      rfl

/-- The lock of the audit chain is free, or the transaction has it. -/
def Center.Free (center : Center) (t : Nat) : Prop := center.holder.all (· == t) = true

theorem alone_persist {plans : List NodePlan} (hups : Upserts plans) (hfree : center.Free t)
    (h : center.txs t = some tx) :
    (persist skillName plans).alone (exec t) center =
      some ((), ({ center with holder := some t } : Center).wrote t tx
        (writesOf skillName plans)) := by
  have hlock : exec t .lockChain center = some ((), { center with holder := some t }) :=
    if_pos hfree
  rw [persist, Program.alone_bind (Program.alone_perform hlock)]
  exact alone_persistNodes hups h

theorem alone_commit (h : center.txs t = some tx) :
    (call .commit).alone (exec t) center = some ((), (center.commit tx).finish t) := by
  refine Program.alone_perform ?_
  rw [exec, h]
  rfl

/-- What is decided about a version, and why. -/
theorem classifyVersion_cases (desired : String → Option Row) (gens : String → Option Int)
    (node : LiveNode) (version sha256 : String) (minNodeVersion : Option String)
    (platforms : List String) :
    let current := (gens node.nodeId).getD 0
    let plan := classifyVersion setup desired gens node version sha256 minNodeVersion platforms
    let tooOld := nodeTooOld setup node.agentVersion minNodeVersion
    let unsupported := platformUnsupported node.labels platforms
    (tooOld = true ∧ plan = hold node .nodeTooOld current) ∨
    (unsupported = true ∧ plan = hold node .platformUnsupported current) ∨
    ((desired node.nodeId).any (fun row => sameDesired row version sha256) = true ∧
      plan = hold node .alreadyInstalled current) ∨
    (tooOld = false ∧ unsupported = false ∧
      (desired node.nodeId).any (fun row => sameDesired row version sha256) = false ∧
      plan = writePlan node current (.upsert ⟨version, sha256⟩)) := by
  intro current plan tooOld unsupported
  have hplan : plan = classifyVersion setup desired gens node version sha256 minNodeVersion platforms := rfl
  rw [hplan, classifyVersion]
  split
  · next hold => exact .inl ⟨hold, rfl⟩
  · next hnew =>
    split
    · next hplatform => exact .inr (.inl ⟨hplatform, rfl⟩)
    · next hplatform =>
      split
      · next hsame => exact .inr (.inr (.inl ⟨hsame, rfl⟩))
      · next hother =>
        exact .inr (.inr (.inr ⟨Bool.eq_false_iff.mpr hnew, Bool.eq_false_iff.mpr hplatform,
          Bool.eq_false_iff.mpr hother, rfl⟩))

theorem upserts_classifyVersion {desired : String → Option Row} {gens : String → Option Int}
    {node : LiveNode} {version sha256 : String} {minNodeVersion : Option String}
    {platforms : List String} {action : Action}
    (h : (classifyVersion setup desired gens node version sha256 minNodeVersion platforms).action =
      some action) : action = .upsert ⟨version, sha256⟩ := by
  obtain ⟨-, hplan⟩ | ⟨-, hplan⟩ | ⟨-, hplan⟩ | ⟨-, -, -, hplan⟩ :=
    @classifyVersion_cases setup desired gens node version sha256 minNodeVersion platforms
  all_goals rw [hplan] at h
  · cases h
  · cases h
  · cases h
  · exact (Option.some.inj h).symm

theorem upserts_rollback {desired : String → Option Row} {gens : String → Option Int}
    {explicit : Option VersionRecord} {versions : List VersionRecord} (nodes : List LiveNode) :
    Upserts (nodes.map (classifyRollback setup desired gens explicit versions)) := by
  intro plan hplan action haction
  obtain ⟨node, -, rfl⟩ := List.mem_map.mp hplan
  unfold classifyRollback at haction
  split at haction
  · cases haction
  · exact ⟨_, upserts_classifyVersion haction⟩

theorem upserts_install {desired : String → Option Row} {gens : String → Option Int}
    {plan : InstallPlan} (nodes : List LiveNode) :
    Upserts (nodes.map (classifyInstall setup desired gens plan)) := by
  intro nodePlan hplan action haction
  obtain ⟨node, -, rfl⟩ := List.mem_map.mp hplan
  exact ⟨_, upserts_classifyVersion haction⟩

/-! ## Requests -/

/-- Plans that find no earlier version write nothing. -/
theorem writesOf_none {plans : List NodePlan} (h : ∀ plan ∈ plans, plan.action = none) :
    writesOf skillName plans = [] := by
  refine List.filterMap_eq_nil_iff.mpr fun plan hplan => ?_
  rw [h plan hplan]
  rfl

theorem action_of_noPreviousVersion {desired : String → Option Row} {gens : String → Option Int}
    {versions : List VersionRecord} {node : LiveNode}
    (h : (classifyRollback setup desired gens none versions node).outcome = .noPreviousVersion) :
    (classifyRollback setup desired gens none versions node).action = none := by
  cases htarget : rollbackTarget setup desired none versions node with
  | none =>
    rw [classifyRollback, htarget]
    rfl
  | some target =>
    rw [classifyRollback, htarget] at h ⊢
    obtain ⟨-, hplan⟩ | ⟨-, hplan⟩ | ⟨-, hplan⟩ | ⟨-, -, -, hplan⟩ :=
      @classifyVersion_cases setup desired gens node target.version target.sha256
        target.minNodeVersion target.platforms
    all_goals
      dsimp only at h ⊢
      rw [hplan] at h ⊢
    · rfl
    · rfl
    · rfl
    · cases h

/-- A rollback that nothing interferes with. -/
theorem alone_rollback (setup : Setup) (skillName : String) (versions : List VersionRecord)
    (slots : Slots) (hfree : center.Free t) :
    ∃ center', (rollback setup skillName none versions slots).alone (exec t) center =
      some ((), center') ∧
        center'.tables = rolledBack setup skillName versions slots center.tables := by
  let begun : Center := { center with txs := Function.update center.txs t (some ⟨center.tables, []⟩) }
  have htx : begun.txs t = some ⟨center.tables, []⟩ := Function.update_self _ _ _
  have hbegin : (call .begin).alone (exec t) center = some ((), begun) := Program.alone_perform rfl
  have hload : (call (.loadDesired skillName)).alone (exec t) begun =
      some (center.tables.rows skillName, begun) := by
    refine Program.alone_perform ?_
    rw [exec, htx]
    rfl
  have hgens : (call .loadGenerations).alone (exec t) begun =
      some (center.tables.generation, begun) := by
    refine Program.alone_perform ?_
    rw [exec, htx]
    rfl
  rw [rollback, Program.alone_bind hbegin]
  split
  · next hempty =>
    refine ⟨_, Program.alone_perform rfl, ?_⟩
    rw [rolledBack, List.isEmpty_iff.mp hempty]
    rfl
  · rw [Program.alone_bind hload, Program.alone_bind hgens]
    dsimp only
    split
    · next hnone =>
      refine ⟨_, Program.alone_perform rfl, ?_⟩
      rw [rolledBack, writesOf_none]
      · rfl
      · intro plan hplan
        have houtcome := List.all_eq_true.mp (Bool.and_eq_true_iff.mp hnone).2 plan hplan
        obtain ⟨node, -, rfl⟩ := List.mem_map.mp hplan
        exact action_of_noPreviousVersion (of_decide_eq_true houtcome)
    · have hfree' : begun.Free t := hfree
      rw [Program.alone_bind (alone_persist (upserts_rollback _) hfree' htx)]
      exact ⟨_, alone_commit (wrote_txs _ _ _), rfl⟩

theorem view_wrote (tx : Tx) (writes : List NodeWrite) :
    ({ tx with writes := tx.writes ++ writes } : Tx).view = applyAll writes tx.view := by
  rw [Tx.view, applyAll_append]
  rfl

/-- The installs of a transaction, one skill after the other. -/
theorem alone_writeInstalls (setup : Setup) (slots : Slots) {plans : List InstallPlan}
    (hfree : center.Free t) (h : center.txs t = some tx) :
    ∃ center' writes, (writeInstalls setup slots plans).alone (exec t) center =
      some ((), center') ∧ center'.txs t = some { tx with writes := tx.writes ++ writes } ∧
        center'.tables = center.tables ∧
        applyAll writes tx.view = afterInstalls setup slots plans tx.view := by
  induction plans generalizing center tx with
  | nil => exact ⟨center, [], rfl, by rw [List.append_nil]; exact h, rfl, rfl⟩
  | cons plan plans ih =>
    have hload : (call (.loadDesired plan.skillName)).alone (exec t) center =
        some (tx.view.rows plan.skillName, center) := by
      refine Program.alone_perform ?_
      rw [exec, h]
      rfl
    have hgens : (call .loadGenerations).alone (exec t) center =
        some (tx.view.generation, center) := by
      refine Program.alone_perform ?_
      rw [exec, h]
      rfl
    rw [writeInstalls, Program.alone_bind hload, Program.alone_bind hgens,
      Program.alone_bind (alone_persist (upserts_install _) hfree h)]
    obtain ⟨center', writes, hrun, htx, htables, hwrites⟩ := @ih
      (Center.wrote { center with
        holder := some t } t tx (installWrites setup slots tx.view plan))
      { tx with
        writes := tx.writes ++ installWrites setup slots tx.view plan }
      (beq_self_eq_true t) (wrote_txs _ _ _)
    refine ⟨center', installWrites setup slots tx.view plan ++ writes, hrun, ?_, htables, ?_⟩
    · rw [htx, List.append_assoc]
    · rw [applyAll_append, ← view_wrote, hwrites, view_wrote]
      rfl

/-- Without nodes nothing is installed. -/
theorem afterInstalls_of_isEmpty {slots : Slots} (h : slots.nodes = []) (plans : List InstallPlan)
    (tables : Tables) : afterInstalls setup slots plans tables = tables := by
  have hnone : ∀ tables plan, installWrites setup slots tables plan = [] := by
    intro tables plan
    rw [installWrites, h]
    rfl
  rw [afterInstalls]
  simp only [hnone]
  exact List.foldl_fixed' (fun _ => rfl) plans

/-- A dry run, or the installs of a request, that nothing interferes with. -/
theorem alone_applyInstalls (setup : Setup) (plans : List InstallPlan) (slots : Slots)
    (dryRun : Bool) (hfree : center.Free t) :
    ∃ center', (applyInstalls setup plans slots dryRun).alone (exec t) center =
      some ((), center') ∧ center'.tables =
        if dryRun then center.tables else afterInstalls setup slots plans center.tables := by
  let begun : Center := { center with txs := Function.update center.txs t (some ⟨center.tables, []⟩) }
  have htx : begun.txs t = some ⟨center.tables, []⟩ := Function.update_self _ _ _
  have hbegin : (call .begin).alone (exec t) center = some ((), begun) := Program.alone_perform rfl
  rw [applyInstalls, Program.alone_bind hbegin]
  cases dryRun with
  | true => exact ⟨_, Program.alone_perform rfl, rfl⟩
  | false =>
    split
    · next hnothing =>
      refine ⟨_, Program.alone_perform rfl, ?_⟩
      rw [Bool.false_or, Bool.or_eq_true, List.isEmpty_iff, List.isEmpty_iff] at hnothing
      show center.tables = afterInstalls setup slots plans center.tables
      rcases hnothing with hnodes | hplans
      · exact (afterInstalls_of_isEmpty hnodes plans center.tables).symm
      · rw [hplans]
        rfl
    · have hfree' : begun.Free t := hfree
      obtain ⟨center', writes, hrun, htx', htables, hwrites⟩ :=
        @alone_writeInstalls begun t ⟨center.tables, []⟩ setup slots plans hfree' htx
      rw [Program.alone_bind hrun]
      refine ⟨_, alone_commit htx', ?_⟩
      show applyAll writes center'.tables = _
      rw [htables]
      exact hwrites

/-! ## One node -/

/-- What the writes of plans leave on a node: what its plan says, and what was there without one
that writes. -/
theorem applyAll_writesOf {slots : Slots} {classify : LiveNode → NodePlan}
    (hnode : ∀ node, (classify node).nodeId = node.nodeId) (tables : Tables) :
    (∀ node ∈ slots.nodes,
      let after := applyAll (writesOf skillName (slots.nodes.map classify)) tables
      after.generation node.nodeId = ((classify node).action.map fun _ => (classify node).generation).or
          (tables.generation node.nodeId) ∧
        after.desired node.nodeId = match (classify node).action with
          | some action => action.apply skillName (tables.desired node.nodeId)
          | none => tables.desired node.nodeId) ∧
    ∀ nodeId, nodeId ∉ slots.nodes.map (·.nodeId) →
      let after := applyAll (writesOf skillName (slots.nodes.map classify)) tables
      after.generation nodeId = tables.generation nodeId ∧
        after.desired nodeId = tables.desired nodeId := by
  obtain ⟨nodes, hdistinct⟩ := slots
  dsimp only
  induction nodes generalizing tables with
  | nil => exact ⟨fun node hmem => (List.not_mem_nil hmem).elim, fun nodeId _ => ⟨rfl, rfl⟩⟩
  | cons first nodes ih =>
    obtain ⟨hfresh, hrest⟩ := List.nodup_cons.mp hdistinct
    rw [List.map_cons, writesOf, List.filterMap_cons, hnode first]
    cases haction : (classify first).action with
    | none =>
      obtain ⟨hnodes, hothers⟩ := ih tables hrest
      refine ⟨fun node hmem => ?_, fun nodeId hmem => ?_⟩
      · rcases List.mem_cons.mp hmem with rfl | hmem
        · rw [haction]
          exact hothers node.nodeId hfresh
        · exact hnodes node hmem
      · exact hothers nodeId fun hlater => hmem (List.mem_cons_of_mem _ hlater)
    | some action =>
      let write : NodeWrite := ⟨first.nodeId, skillName, action, (classify first).generation⟩
      obtain ⟨hnodes, hothers⟩ := ih (NodeWrite.apply tables write) hrest
      have hkept : ∀ nodeId ≠ first.nodeId,
          (NodeWrite.apply tables write).generation nodeId = tables.generation nodeId ∧
            (NodeWrite.apply tables write).desired nodeId = tables.desired nodeId :=
        fun nodeId hne => ⟨Function.update_of_ne hne _ _, Function.update_of_ne hne _ _⟩
      refine ⟨fun node hmem => ?_, fun nodeId hmem => ?_⟩
      · rcases List.mem_cons.mp hmem with rfl | hmem
        · obtain ⟨hgen, hdesired⟩ := hothers node.nodeId hfresh
          rw [haction]
          refine ⟨hgen.trans ?_, hdesired.trans ?_⟩
          · exact Function.update_self _ _ _
          · exact Function.update_self _ _ _
        · have hne : node.nodeId ≠ first.nodeId := fun heq =>
            hfresh (List.mem_map.mpr ⟨node, hmem, heq⟩)
          obtain ⟨hgen, hdesired⟩ := hnodes node hmem
          rw [(hkept node.nodeId hne).1] at hgen
          rw [(hkept node.nodeId hne).2] at hdesired
          exact ⟨hgen, hdesired⟩
      · rw [List.map_cons, List.mem_cons, not_or] at hmem
        obtain ⟨hgen, hdesired⟩ := hothers nodeId hmem.2
        exact ⟨hgen.trans (hkept nodeId hmem.1).1, hdesired.trans (hkept nodeId hmem.1).2⟩

/-- A plan that writes a version, if it writes, leaves its row. -/
theorem rows_of_upserts {plan : NodePlan} {skills : SkillSet}
    (hups : ∀ action, plan.action = some action → ∃ row, action = .upsert row) :
    (match plan.action with
      | some action => action.apply skillName skills
      | none => skills).lookup skillName = plan.rowAfter (skills.lookup skillName) := by
  rw [NodePlan.rowAfter]
  cases haction : plan.action with
  | none => rfl
  | some action =>
    obtain ⟨row, rfl⟩ := hups action haction
    show (skills.insert skillName row).lookup skillName = some row
    rw [SortedMap.lookup_insert, if_pos rfl]

end

end Novbot.Desired
