import Novbot.Lib.SortedMap
import Novbot.Lib.Text
import Mathlib.Data.String.Basic
import Mathlib.Logic.Function.Basic

/-!
# Plans for the desired skills of nodes

The tables `node_skill_sets` and `node_skills_desired`, and how an install, a rollback and
an uninstall decide what to write for a node.  A decision reads the desired version of one
skill and the generation of the node, and a write counts the generation up.
-/

namespace Novbot.Desired

open Text

/-- A row of `node_skills_desired`, for a node and a skill. -/
structure Row where
  version : String
  sha256 : String
  deriving DecidableEq, Repr

abbrev SkillSet := SortedMap String Row

structure Tables where
  generation : String → Option Int
  desired : String → SkillSet

def Tables.initial : Tables := ⟨fun _ => none, fun _ => .empty⟩

/-- The generation of a node, which is 0 without a row. -/
def Tables.gen (tables : Tables) (nodeId : String) : Int := (tables.generation nodeId).getD 0

inductive Action where
  | upsert (row : Row)
  | delete
  deriving DecidableEq, Repr

/-- What `persist` writes for a node: the generation with the row of the skill. -/
structure NodeWrite where
  nodeId : String
  skillName : String
  action : Action
  generation : Int
  deriving DecidableEq, Repr

def Action.apply (action : Action) (skillName : String) (skills : SkillSet) : SkillSet :=
  match action with
  | .upsert row => skills.insert skillName row
  | .delete => skills.filter fun name _ => name ≠ skillName

def NodeWrite.apply (tables : Tables) (write : NodeWrite) : Tables where
  generation := Function.update tables.generation write.nodeId (some write.generation)
  desired := Function.update tables.desired write.nodeId
    (write.action.apply write.skillName (tables.desired write.nodeId))

def applyAll (writes : List NodeWrite) (tables : Tables) : Tables :=
  writes.foldl NodeWrite.apply tables

/-- How many of the writes are for a node. -/
def writesFor (writes : List NodeWrite) (nodeId : String) : Nat :=
  writes.countP fun write => write.nodeId = nodeId

/-! ## Decisions -/

structure LiveNode where
  nodeId : String
  agentVersion : String
  labels : List (String × String)

inductive VersionStatus where
  | published
  | deprecated
  | other
  deriving DecidableEq, Repr

structure VersionRecord where
  version : String
  sha256 : String
  status : VersionStatus
  minNodeVersion : Option String
  platforms : List String

/-- `Version::parse` of a third-party crate, as the place of a version in their order. -/
structure Setup where
  precedence : String → Option Nat

inductive Outcome where
  | nodeTooOld
  | platformUnsupported
  | alreadyInstalled
  | noPreviousVersion
  /-- `pending` or `queued`. -/
  | written
  deriving DecidableEq, Repr

structure NodePlan where
  nodeId : String
  outcome : Outcome
  generation : Int
  action : Option Action

def hold (node : LiveNode) (outcome : Outcome) (generation : Int) : NodePlan :=
  ⟨node.nodeId, outcome, generation, none⟩

def writePlan (node : LiveNode) (current : Int) (action : Action) : NodePlan :=
  ⟨node.nodeId, .written, current + 1, some action⟩

def trimmed (text : String) : String := String.ofList (trim text.toList)

def nodeTooOld (setup : Setup) (nodeVersion : String) (minNodeVersion : Option String) : Bool :=
  match (minNodeVersion.map trimmed).filter (· ≠ "") with
  | none => false
  | some minRaw =>
    if trimmed nodeVersion = "" then false
    else
      match setup.precedence (trimmed nodeVersion), setup.precedence minRaw with
      | some node, some required => node < required
      | _, _ => false

def label (labels : List (String × String)) (key : String) : Option String :=
  ((labels.lookup key).map trimmed).filter (· ≠ "")

def platformUnsupported (labels : List (String × String)) (platforms : List String) : Bool :=
  if platforms.isEmpty then false
  else
    match label labels "os", label labels "arch" with
    | some os, some arch =>
      !platforms.any fun platform => platform == os ++ "/" ++ arch || platform == os ++ "-" ++ arch
    | _, _ => false

def sameDesired (desired : Row) (version sha256 : String) : Bool :=
  desired.version = version && desired.sha256.toLower = (trimmed sha256).toLower

structure InstallPlan where
  skillName : String
  version : String
  sha256 : String
  minNodeVersion : Option String
  platforms : List String

variable (setup : Setup) (desired : String → Option Row) (gens : String → Option Int)

/-- The rest of a decision for a version. -/
def classifyVersion (node : LiveNode) (version sha256 : String) (minNodeVersion : Option String)
    (platforms : List String) : NodePlan :=
  let current := (gens node.nodeId).getD 0
  if nodeTooOld setup node.agentVersion minNodeVersion then hold node .nodeTooOld current
  else if platformUnsupported node.labels platforms then hold node .platformUnsupported current
  else if (desired node.nodeId).any fun row => sameDesired row version sha256 then
    hold node .alreadyInstalled current
  else writePlan node current (.upsert ⟨version, sha256⟩)

def classifyInstall (plan : InstallPlan) (node : LiveNode) : NodePlan :=
  classifyVersion setup desired gens node plan.version plan.sha256 plan.minNodeVersion plan.platforms

/-- The greatest published or deprecated version below another. -/
def previousVersion (versions : List VersionRecord) (current : Nat) : Option VersionRecord :=
  (versions.filter fun row => row.status ≠ .other &&
      (setup.precedence row.version).any (· < current)).foldl
    (fun best row =>
      match best with
      | none => some row
      | some best =>
        if (setup.precedence row.version).getD 0 < (setup.precedence best.version).getD 0 then some best
        else some row)
    none

/-- The version that a rollback of a node goes to. -/
def rollbackTarget (explicit : Option VersionRecord) (versions : List VersionRecord)
    (node : LiveNode) : Option VersionRecord :=
  explicit.or do
    let row ← desired node.nodeId
    let current ← setup.precedence row.version
    previousVersion setup versions current

def classifyRollback (explicit : Option VersionRecord) (versions : List VersionRecord)
    (node : LiveNode) : NodePlan :=
  match rollbackTarget setup desired explicit versions node with
  | none => hold node .noPreviousVersion ((gens node.nodeId).getD 0)
  | some target =>
    classifyVersion setup desired gens node target.version target.sha256 target.minNodeVersion
      target.platforms

def classifyUninstall (node : LiveNode) : NodePlan :=
  let current := (gens node.nodeId).getD 0
  if (desired node.nodeId).isNone then hold node .alreadyInstalled current
  else writePlan node current .delete

/-! ## What a plan writes -/

/-- A plan is for its node, and one that writes counts the generation up. -/
structure Counts (gens : String → Option Int) (node : LiveNode) (plan : NodePlan) : Prop where
  nodeId : plan.nodeId = node.nodeId
  generation : plan.action ≠ none → plan.generation = (gens node.nodeId).getD 0 + 1

variable {setup desired gens}

theorem counts_hold {node : LiveNode} {outcome : Outcome} {generation : Int} :
    Counts gens node (hold node outcome generation) := ⟨rfl, fun h => absurd rfl h⟩

theorem counts_writePlan {node : LiveNode} {action : Action} :
    Counts gens node (writePlan node ((gens node.nodeId).getD 0) action) := ⟨rfl, fun _ => rfl⟩

theorem counts_classifyVersion {node : LiveNode} {version sha256 : String}
    {minNodeVersion : Option String} {platforms : List String} :
    Counts gens node
      (classifyVersion setup desired gens node version sha256 minNodeVersion platforms) := by
  unfold classifyVersion
  dsimp only
  split
  · exact counts_hold
  · split
    · exact counts_hold
    · split
      · exact counts_hold
      · exact counts_writePlan

theorem counts_classifyRollback {node : LiveNode} {explicit : Option VersionRecord}
    {versions : List VersionRecord} :
    Counts gens node (classifyRollback setup desired gens explicit versions node) := by
  unfold classifyRollback
  split
  · exact counts_hold
  · exact counts_classifyVersion

theorem counts_classifyUninstall {node : LiveNode} :
    Counts gens node (classifyUninstall desired gens node) := by
  unfold classifyUninstall
  dsimp only
  split
  · exact counts_hold
  · exact counts_writePlan

/-! ## What writes do to a node -/

theorem applyAll_of_no_write {writes : List NodeWrite} {nodeId : String}
    (h : writesFor writes nodeId = 0) (tables : Tables) :
    (applyAll writes tables).generation nodeId = tables.generation nodeId ∧
      (applyAll writes tables).desired nodeId = tables.desired nodeId := by
  induction writes generalizing tables with
  | nil => exact ⟨rfl, rfl⟩
  | cons write writes ih =>
    unfold writesFor at h
    rw [List.countP_cons] at h
    split at h
    · cases h
    · next hne =>
      have hother : nodeId ≠ write.nodeId := fun heq => hne (decide_eq_true heq.symm)
      obtain ⟨hgen, hdesired⟩ := ih h (NodeWrite.apply tables write)
      refine ⟨hgen.trans ?_, hdesired.trans ?_⟩
      · exact Function.update_of_ne hother _ _
      · exact Function.update_of_ne hother _ _

/-- The generation that is left comes from the writes. -/
theorem gen_applyAll_congr {writes : List NodeWrite} {nodeId : String}
    (h : writesFor writes nodeId ≠ 0) (tables tables' : Tables) :
    (applyAll writes tables).gen nodeId = (applyAll writes tables').gen nodeId := by
  induction writes generalizing tables tables' with
  | nil => exact absurd rfl h
  | cons write writes ih =>
    by_cases hlater : writesFor writes nodeId = 0
    · have hnode : write.nodeId = nodeId := by
        unfold writesFor at h hlater
        rw [List.countP_cons, hlater] at h
        by_contra hne
        rw [if_neg (by simpa using hne)] at h
        exact h rfl
      subst hnode
      show ((applyAll writes (NodeWrite.apply tables write)).generation write.nodeId).getD 0 =
        ((applyAll writes (NodeWrite.apply tables' write)).generation write.nodeId).getD 0
      rw [(applyAll_of_no_write hlater _).1, (applyAll_of_no_write hlater _).1]
      simp [NodeWrite.apply]
    · exact ih hlater _ _

theorem applyAll_concat (writes : List NodeWrite) (write : NodeWrite) (tables : Tables) :
    applyAll (writes ++ [write]) tables = NodeWrite.apply (applyAll writes tables) write := by
  unfold applyAll
  rw [List.foldl_append]
  rfl

theorem writesFor_concat (writes : List NodeWrite) (write : NodeWrite) (nodeId : String) :
    writesFor (writes ++ [write]) nodeId =
      writesFor writes nodeId + if write.nodeId = nodeId then 1 else 0 := by
  unfold writesFor
  rw [List.countP_append, List.countP_singleton]
  simp

theorem gen_apply (tables : Tables) (write : NodeWrite) (nodeId : String) :
    (NodeWrite.apply tables write).gen nodeId =
      if write.nodeId = nodeId then write.generation else tables.gen nodeId := by
  unfold Tables.gen NodeWrite.apply
  by_cases h : write.nodeId = nodeId
  · subst h
    simp
  · simp [h, Function.update_of_ne (Ne.symm h)]

end Novbot.Desired
