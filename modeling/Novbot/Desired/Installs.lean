import Novbot.Lib.Fallible
import Novbot.Catalog.Package
import Novbot.Desired.Alone
import Novbot.Targets.Submit

/-!
# Installs and their dry runs

The requests to install a skill and to install a bundle, from the catalog to the response, with the
rows that they write.  A dry run is the same request with a flag.  Nothing else happens while the
request runs; what its transaction does among others is in `Desired.Center`.
-/

namespace Novbot.Desired.Installs

open Targets (TargetBody TargetError Frozen)

/-! ## Requests -/

inductive DesiredError where
  | builtinReadOnly
  | skillUnknown
  | versionUnknown
  | versionNotInstallable
  | capabilitiesChanged
  | bundleUnknown
  | noTargetNodes
  | target (error : TargetError)
  | internal (detail : String)

/-- A row of `skill_versions`. -/
structure CatalogRow where
  version : String
  sha256 : String
  status : String
  minNodeVersion : Option String
  platforms : List String
  capabilitiesSha256 : String

structure BundleItem where
  skillName : String
  versionReq : String

structure Bundle where
  items : List BundleItem
  distinct : (items.map (·.skillName)).Nodup

/-- What the requests read of the center. -/
structure Setup where
  desired : Desired.Setup
  targets : Targets.Setup
  /-- `version_matches`, of a requirement and a version. -/
  matching : String → String → Bool
  /-- The versions of a skill of the catalog. -/
  versions : String → Option (List CatalogRow)
  bundles : String → Option Bundle
  /-- The rows of `nodes`. -/
  nodes : List LiveNode
  distinct : (nodes.map (·.nodeId)).Nodup

/-- The part of a request that names its nodes. -/
structure AimBody where
  nodeIds : List String
  selector : Option (SortedMap String String)
  target : Option TargetBody
  confirmProd : Option Nat

structure InstallRequest where
  version : String
  aim : AimBody
  acceptedCapabilitiesSha256 : Option String
  dryRun : Bool

structure BundleInstallRequest where
  aim : AimBody
  acceptedCapabilities : String → Option String
  dryRun : Bool

structure PerNode where
  nodeId : String
  outcome : String
  generation : Int
  deriving DecidableEq, Repr

structure ChangeResponse where
  operationId : Option String
  resolutionId : Option String
  dryRun : Bool
  perNode : List PerNode

/-- A plan with the capabilities that were accepted. -/
structure Accepted extends InstallPlan where
  capabilitiesSha256 : String

/-- What is said about one skill. -/
structure SkillChange where
  skillName : String
  operationId : Option String
  resolutionId : Option String
  perNode : List PerNode

structure TargetView where
  nodeId : String
  found : Bool
  generation : Int

structure BatchResult where
  changes : List SkillChange
  targets : List TargetView

/-! ## Rows -/

/-- A row of `skill_operations`. -/
structure Operation where
  id : String
  opType : String
  skillName : String
  version : Option String
  perNode : List PerNode
  capabilitiesSha256 : Option String
  force : Bool

/-- The tables that the requests write. -/
structure Ledger where
  tables : Tables
  operations : List Operation
  /-- The resolutions and the audit events. -/
  store : Targets.Store

abbrev Request (α : Type) := ExceptT DesiredError (StateM Ledger) α

def onStore {α : Type} (x : Targets.Tx α) : StateM Ledger α := fun ledger =>
  ((x.run ledger.store).1, { ledger with
    store := (x.run ledger.store).2 })

def submit {α : Type} (x : Targets.Submit α) : Request α :=
  Fallible.onPart (·.store) (fun store ledger => { ledger with
    store := store }) .target x

/-! ## Nodes -/

inductive Slot where
  | missing (nodeId : String)
  | node (node : LiveNode)

def Slot.id : Slot → String
  | .missing nodeId => nodeId
  | .node live => live.nodeId

def Slot.isMissing : Slot → Bool
  | .missing _ => true
  | .node _ => false

structure Selection where
  nodeIds : List String
  selector : Option (SortedMap String String)

def Selection.new (nodeIds : List String) (selector : Option (SortedMap String String)) : Selection :=
  ⟨nodeIds.eraseDups, selector⟩

def Selection.isBlank (selection : Selection) : Bool :=
  selection.nodeIds.isEmpty && selection.selector.isNone

def labelsMatch (labels : List (String × String)) (want : SortedMap String String) : Bool :=
  want.entries.all fun (key, value) => labels.lookup key == some value

/-- The slot of an id. -/
def slotOf (nodes : List LiveNode) (id : String) : Slot :=
  match nodes.find? (·.nodeId == id) with
  | some node => .node node
  | none => .missing id

/-- The slots of ids, without those that were seen. -/
def namedSlots (nodes : List LiveNode) (seen : List String) : List String → List Slot
  | [] => []
  | id :: ids =>
    if seen.contains id then namedSlots nodes seen ids
    else slotOf nodes id :: namedSlots nodes (id :: seen) ids

def resolve (nodes : List LiveNode) (selection : Selection) : List Slot :=
  let named := namedSlots nodes [] selection.nodeIds
  match selection.selector with
  | none => named
  | some labels =>
    let extra := nodes.filter fun node =>
      !selection.nodeIds.contains node.nodeId && labelsMatch node.labels labels
    named ++ (extra.mergeSort fun left right => left.nodeId ≤ right.nodeId).map .node

variable (setup : Setup)

def prepare (selection : Selection) : Except DesiredError (List Slot) :=
  if selection.isBlank then throw .noTargetNodes
  else
    let slots := resolve setup.nodes selection
    if slots.isEmpty then throw .noTargetNodes else pure slots

structure SkillAim where
  selection : Selection
  snapshot : Option Frozen
  confirm : Option Nat
  auditId : String

/-- The aim of a target that was submitted. -/
def frozenAim (target : TargetBody) (confirm : Option Nat) (auditId : String) : Request SkillAim := do
  let frozen ← submit (Targets.checkSubmit setup.targets target confirm "skill_operation" auditId)
  return ⟨.new frozen.nodeIds none, some frozen, confirm, auditId⟩

def prepareSkillAim (body : AimBody) (auditId : String) : Request SkillAim :=
  match body.target.filter Targets.hasMode with
  | some target => frozenAim setup target body.confirmProd auditId
  | none =>
    if body.selector.isSome then
      pure ⟨.new body.nodeIds body.selector, none, body.confirmProd, auditId⟩
    else if body.nodeIds.any fun id => trimmed id ≠ "" then
      frozenAim setup ⟨none, some body.nodeIds, [], none⟩ body.confirmProd auditId
    else throw .noTargetNodes

def prodIdsAmong (nodeIds : List String) : List String :=
  ((setup.targets.inventory.filter fun node =>
    node.prod && nodeIds.contains node.nodeId).map (·.nodeId)).mergeSort (· ≤ ·)

def ensureProdConfirm (nodeIds : List String) (confirm : Option Nat) (kind targetId : String) :
    Targets.Submit Unit :=
  let prod := prodIdsAmong setup nodeIds
  Targets.failIf (prod ≠ [] ∧ confirm ≠ some prod.length) do
    Targets.refuse kind targetId "prod_confirmation_required" none prod
    throw (.prod prod prod.length)

def guardAim (slots : List Slot) (aim : SkillAim) : Request Unit :=
  if aim.snapshot.isSome then pure ()
  else
    submit (ensureProdConfirm setup ((slots.filter fun slot => !slot.isMissing).map (·.id))
      aim.confirm "skill_operation" aim.auditId)

/-! ## The catalog -/

def acceptedHash (stored : String) (provided : Option String) : Except DesiredError String :=
  let stored := (trimmed stored).toLower
  match (provided.map trimmed).filter (· ≠ "") with
  | none => throw .capabilitiesChanged
  | some provided => if provided.toLower = stored then pure stored else throw .capabilitiesChanged

def planOf (skillName : String) (row : CatalogRow) (capabilitiesSha256 : String) : Accepted :=
  { skillName
    version := row.version
    sha256 := row.sha256
    minNodeVersion := row.minNodeVersion
    platforms := row.platforms
    capabilitiesSha256 }

/-- What the catalog has for an install. -/
def installPlan (name : String) (body : InstallRequest) : Except DesiredError Accepted := do
  if name ∈ Catalog.reservedNames then throw .builtinReadOnly
  let versions ← (setup.versions name).elim (throw .skillUnknown) pure
  let row ← (versions.find? (·.version == body.version)).elim (throw .versionUnknown) pure
  if row.status = "deprecated" ∨ row.status = "yanked" then throw .versionNotInstallable
  let capabilitiesSha256 ← acceptedHash row.capabilitiesSha256 body.acceptedCapabilitiesSha256
  return planOf name row capabilitiesSha256

/-- The last of the greatest. -/
def lastGreatest {α : Type} (key : α → Nat) : List α → Option α :=
  List.foldl (fun best row =>
    match best with
    | none => some row
    | some best => if key row < key best then some best else some row) none

def highestPublished (req : String) (versions : List CatalogRow) : Option CatalogRow :=
  lastGreatest (fun row => (setup.desired.precedence row.version).getD 0)
    (versions.filter fun row => row.status == "published" &&
      (setup.desired.precedence row.version).isSome && setup.matching req row.version)

/-- What the catalog has for the items of a bundle. -/
def bundlePlans (acceptedCapabilities : String → Option String) :
    List BundleItem → Except DesiredError (List Accepted)
  | [] => pure []
  | item :: items =>
    if item.skillName ∈ Catalog.reservedNames then bundlePlans acceptedCapabilities items
    else do
      let versions := (setup.versions item.skillName).getD []
      let best ← (highestPublished setup item.versionReq versions).elim (throw .versionUnknown) pure
      let capabilitiesSha256 ← acceptedHash best.capabilitiesSha256 (acceptedCapabilities item.skillName)
      return planOf item.skillName best capabilitiesSha256 :: (← bundlePlans acceptedCapabilities items)

/-! ## Plans -/

structure SlotPlan where
  nodeId : String
  outcome : String
  generation : Int
  action : Option Action
  otherVersion : Bool

def missingPlan (nodeId : String) : SlotPlan := ⟨nodeId, "node_unknown", 0, none, false⟩

def classifyInstall (tables : Tables) (plan : InstallPlan) (write : Bool) (slot : Slot) : SlotPlan :=
  match slot with
  | .missing nodeId => missingPlan nodeId
  | .node node =>
    let desired := tables.rows plan.skillName node.nodeId
    let current := tables.gen node.nodeId
    let other := desired.any fun row => row.version ≠ plan.version
    if nodeTooOld setup.desired node.agentVersion plan.minNodeVersion then
      ⟨node.nodeId, "node_too_old", current, none, other⟩
    else if platformUnsupported node.labels plan.platforms then
      ⟨node.nodeId, "platform_unsupported", current, none, other⟩
    else if desired.any fun row => sameDesired row plan.version plan.sha256 then
      ⟨node.nodeId, "already_installed", current, none, other⟩
    else
      ⟨node.nodeId, if setup.targets.connected node.nodeId then "pending" else "queued",
        if write then current + 1 else current,
        if write then some (.upsert ⟨plan.version, plan.sha256⟩) else none, other⟩

def perNodes (plans : List SlotPlan) : List PerNode :=
  plans.map fun plan => ⟨plan.nodeId, plan.outcome, plan.generation⟩

def singleNodeId (plans : List SlotPlan) : Option String :=
  match plans.filter (·.outcome ≠ "node_unknown") with
  | [plan] => some plan.nodeId
  | _ => none

def targetViews (tables : Tables) (slots : List Slot) : List TargetView :=
  slots.map fun
    | .missing nodeId => ⟨nodeId, false, 0⟩
    | .node node => ⟨node.nodeId, true, tables.gen node.nodeId⟩

def previewInstalls (tables : Tables) (plans : List Accepted) (slots : List Slot) :
    List SkillChange :=
  plans.map fun plan => ⟨plan.skillName, none, none,
    perNodes (slots.map (classifyInstall setup tables plan.toInstallPlan false))⟩

/-! ## Writes -/

/-- The writes of plans to the desired sets. -/
def nodeWrites (skillName : String) (plans : List SlotPlan) : List NodeWrite :=
  plans.filterMap fun plan => plan.action.map fun action =>
    ⟨plan.nodeId, skillName, action, plan.generation⟩

def auditAction (opType : String) : String :=
  if opType = "upgrade" then "skill.upgrade"
  else if opType = "rollback" then "skill.rollback"
  else if opType = "uninstall" then "skill.uninstall"
  else "skill.install"

def perNodeJson (node : PerNode) : Json :=
  .obj [("node_id", .str node.nodeId), ("outcome", .str node.outcome),
    ("generation", .int node.generation)]

def auditDetail (operationId : String) (resolutionId : Option String) (skillName : String)
    (version : Option String) (plans : List SlotPlan) : Json :=
  .obj [("operation_id", .str operationId), ("resolution_id", Targets.textOrNull resolutionId),
    ("skill_name", .str skillName), ("version", Targets.textOrNull version),
    ("per_node", .arr ((perNodes plans).map perNodeJson))]

def persist (skillName opType : String) (version capabilitiesSha256 : Option String) (force : Bool)
    (plans : List SlotPlan) (snapshot : Option Frozen) : StateM Ledger (String × Option String) := do
  let operationId ← onStore (Targets.newUuid setup.targets)
  modify fun ledger => { ledger with
    tables := applyAll (nodeWrites skillName plans) ledger.tables
    operations := ledger.operations ++
      [⟨operationId, opType, skillName, version, perNodes plans, capabilitiesSha256, force⟩] }
  let resolutionId ← match snapshot with
    | some frozen => do
      let id ← onStore
        (Targets.insertResolution setup.targets "skill_operation" operationId frozen none)
      pure (some id)
    | none => pure none
  onStore (Targets.insert (.audit (auditAction opType) "skill" skillName (singleNodeId plans)
    (auditDetail operationId resolutionId skillName version plans)))
  return (operationId, resolutionId)

def writeInstall (slots : List Slot) (snapshot : Option Frozen) (plan : Accepted) :
    StateM Ledger SkillChange := do
  let ledger ← get
  let plans := slots.map (classifyInstall setup ledger.tables plan.toInstallPlan true)
  let opType := if plans.any (·.otherVersion) then "upgrade" else "install"
  if plans.any (·.outcome ≠ "node_unknown") then
    let (operationId, resolutionId) ← persist setup plan.skillName opType (some plan.version)
      (some plan.capabilitiesSha256) false plans snapshot
    return ⟨plan.skillName, some operationId, resolutionId, perNodes plans⟩
  else return ⟨plan.skillName, none, none, perNodes plans⟩

def writeInstalls (slots : List Slot) (snapshot : Option Frozen) :
    List Accepted → StateM Ledger (List SkillChange)
  | [] => pure []
  | plan :: plans => do
    let change ← writeInstall setup slots snapshot plan
    return change :: (← writeInstalls slots snapshot plans)

def readOnly (plans : List Accepted) (slots : List Slot) (dryRun : Bool) : Bool :=
  dryRun || slots.all (·.isMissing) || plans.isEmpty

def previewOrWrite (plans : List Accepted) (slots : List Slot) (snapshot : Option Frozen)
    (dryRun : Bool) : StateM Ledger (List SkillChange) := do
  let ledger ← get
  if readOnly plans slots dryRun then return previewInstalls setup ledger.tables plans slots
  else writeInstalls setup slots snapshot plans

/-- The rest of `apply_installs`, after the checks. -/
def changeInstalls (plans : List Accepted) (slots : List Slot) (snapshot : Option Frozen)
    (dryRun : Bool) : StateM Ledger BatchResult := do
  let changes ← previewOrWrite setup plans slots snapshot dryRun
  let ledger ← get
  return ⟨changes, targetViews ledger.tables slots⟩

/-- The checks of `apply_installs`. -/
def checkedSlots (aim : SkillAim) : Request (List Slot) := do
  let slots ← (prepare setup aim.selection : Except _ _)
  guardAim setup slots aim
  return slots

def applyInstalls (plans : List Accepted) (aim : SkillAim) (dryRun : Bool) :
    Request BatchResult := do
  let slots ← checkedSlots setup aim
  changeInstalls setup plans slots aim.snapshot dryRun

def installResponse (dryRun : Bool) (batch : BatchResult) : Except DesiredError ChangeResponse :=
  match batch.changes with
  | change :: _ => pure ⟨change.operationId, change.resolutionId, dryRun, change.perNode⟩
  | [] => throw (.internal "install plan missing")

def install (name : String) (body : InstallRequest) : Request ChangeResponse := do
  let plan ← (installPlan setup name body : Except _ _)
  let aim ← prepareSkillAim setup body.aim name
  let batch ← applyInstalls setup [plan] aim body.dryRun
  (installResponse body.dryRun batch : Except _ _)

def builtinPerNode (targets : List TargetView) : List PerNode :=
  targets.map fun target => ⟨target.nodeId,
    if target.found then "already_installed" else "node_unknown", target.generation⟩

def bundleOperation (batch : BatchResult) (item : BundleItem) : Option SkillChange :=
  match batch.changes.find? (·.skillName == item.skillName) with
  | some change => some change
  | none =>
    if item.skillName ∈ Catalog.reservedNames then
      some ⟨item.skillName, none, none, builtinPerNode batch.targets⟩
    else none

def getBundle (id : String) : Except DesiredError Bundle :=
  (setup.bundles id).elim (throw .bundleUnknown) pure

def installBundle (id : String) (body : BundleInstallRequest) : Request (List SkillChange) := do
  let bundle ← (getBundle setup id : Except _ _)
  let plans ← (bundlePlans setup body.acceptedCapabilities bundle.items : Except _ _)
  let aim ← prepareSkillAim setup body.aim id
  let batch ← applyInstalls setup plans aim body.dryRun
  return bundle.items.filterMap (bundleOperation batch)

end Novbot.Desired.Installs
