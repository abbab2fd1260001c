import Novbot.Catalog.Package
import Novbot.Desired.Center

/-!
# The catalog in the database

The tables `skills`, `skill_versions` and `skill_artifacts`, and the requests that change
them: the upload of a package and the deletion of a version.  The requests that read
versions to make them desired share the database; their own transactions are those of
`Desired`.

A name stands for the id of its skill, and no skill is ever deleted.  A transaction locks
the row of a skill, and with it the rows of its versions.  Its writes take effect when it
commits, and its plain reads are from the snapshot of the first of them.  The requests to
install read versions outside of their transactions and lock none.
-/

namespace Novbot.Catalog

open Concurrent Package

/-! ## Tables -/

/-- A row of `skills`. -/
structure Skill where
  displayName : String
  description : String
  publisher : Option String
  deriving DecidableEq, Repr

structure Tables where
  skills : String → Option Skill
  versions : List ParsedPackage
  artifacts : String → Option Bytes

def Tables.initial : Tables := ⟨fun _ => none, [], fun _ => none⟩

/-- The row has this `(skill_id, version)`. -/
def ParsedPackage.holds (package : ParsedPackage) (name version : String) : Bool :=
  package.name == name && package.version == version

def Tables.version (tables : Tables) (name version : String) : Option ParsedPackage :=
  tables.versions.find? (·.holds name version)

inductive Write where
  | insertSkill (package : ParsedPackage)
  | updateSkill (package : ParsedPackage)
  | insertArtifact (sha256 : String) (data : Bytes)
  | insertVersion (package : ParsedPackage)
  | deleteVersion (name version : String)
  | deleteArtifact (sha256 : String)

def skillOf (package : ParsedPackage) : Skill :=
  ⟨package.displayName, package.description, package.publisher⟩

/-- Nothing when the write breaks a key. -/
def Write.apply (tables : Tables) : Write → Option Tables
  | .insertSkill package =>
    if (tables.skills package.name).isSome then none
    else some { tables with
      skills := Function.update tables.skills package.name (some (skillOf package)) }
  | .updateSkill package => some { tables with
      skills := Function.update tables.skills package.name
        ((tables.skills package.name).map fun _ => skillOf package) }
  | .insertArtifact sha256 data =>
    if (tables.artifacts sha256).isSome then none
    else some { tables with artifacts := Function.update tables.artifacts sha256 (some data) }
  | .insertVersion package =>
    if (tables.skills package.name).isNone || tables.versions.any fun row =>
        row.holds package.name package.version || row.sha256 == package.sha256 then none
    else some { tables with versions := tables.versions ++ [package] }
  | .deleteVersion name version => some { tables with
      versions := tables.versions.filter fun row => !row.holds name version }
  | .deleteArtifact sha256 => some { tables with
      artifacts := Function.update tables.artifacts sha256 none }

def applyAll (writes : List Write) (tables : Tables) : Option Tables :=
  writes.foldlM Write.apply tables

/-! ## Requests -/

inductive Lock where
  | skill (name : String)
  | artifact (sha256 : String)
  deriving DecidableEq, Repr

inductive Outcome where
  | refused (err : CatalogError)
  | registered (created : Bool) (package : ParsedPackage)
  | versionExists
  | skillUnknown
  | versionUnknown
  | versionInUse
  | deleted
  | internal

inductive Op where
  | lockSkill (name : String)
  | insertSkill (package : ParsedPackage)
  /-- `lock_version_sha`. -/
  | lockVersion (name version : String)
  /-- `artifact_size`. -/
  | lockArtifact (sha256 : String)
  | insertArtifact (sha256 : String)
  | artifactExists (sha256 : String)
  | versionInUse (name version : String)
  /-- Another version than the one that the transaction has deleted has the hash. -/
  | artifactUsed (name version sha256 : String)
  | commit (writes : List Write)
  | rollback
  | skillExists (name : String)
  | loadVersions (name : String)
  /-- An operation of a transaction on desired sets. -/
  | desired (op : Desired.Op)
  | respond (outcome : Outcome)

@[reducible] def Op.Reply : Op → Type
  | .lockSkill _ => Bool
  | .insertSkill _ => Bool
  | .lockVersion _ _ => Option String
  | .lockArtifact _ => Option Nat
  | .insertArtifact _ => Bool
  | .artifactExists _ => Bool
  | .versionInUse _ _ => Bool
  | .artifactUsed _ _ _ => Bool
  | .commit _ => Bool
  | .rollback => Unit
  | .skillExists _ => Bool
  | .loadVersions _ => List ParsedPackage
  | .desired op => op.Reply
  | .respond _ => Unit

abbrev Prog (α : Type) := Program Op.Reply α

def call (op : Op) : Prog op.Reply := Program.call op

structure Setup where
  formats : Formats
  desired : Desired.Setup
  /-- `version_matches`, of a requirement and a version. -/
  matching : String → String → Bool

/-! ### Uploads -/

/-- The writes that store an artifact, or nothing when it cannot be stored. -/
def putArtifact (formats : Formats) (sha256 : String) (data : Bytes) :
    Prog (Option (List Write)) := do
  let sameSizeOrConflict (size : Nat) : Option (List Write) :=
    if size = data.length then some [] else none
  if formats.sha256 data ≠ sha256 then pure none
  else
    match ← call (.lockArtifact sha256) with
    | some size => pure (sameSizeOrConflict size)
    | none =>
      if ← call (.insertArtifact sha256) then pure (some [.insertArtifact sha256 data])
      else pure ((← call (.lockArtifact sha256)).bind sameSizeOrConflict)

/-- Commits when the artifact is stored. -/
def commitStored (created : Bool) (package : ParsedPackage) (first last : List Write) :
    Option (List Write) → Prog Outcome
  | some stored => do
    if ← call (.commit (first ++ stored ++ last)) then pure (.registered created package)
    else pure .internal
  | none => do
    call .rollback
    pure .internal

def writeVersion (formats : Formats) (body : Bytes) (package : ParsedPackage) (first : Write) :
    Prog Outcome := do
  commitStored true package [first] [.insertVersion package]
    (← putArtifact formats package.sha256 body)

def ensureArtifact (formats : Formats) (body : Bytes) (package : ParsedPackage) :
    Prog Outcome := do
  if ← call (.artifactExists package.sha256) then pure (.registered false package)
  else commitStored false package [] [] (← putArtifact formats package.sha256 body)

/-- `persist`, when the row of the skill is locked. -/
def persistVersion (formats : Formats) (body : Bytes) (package : ParsedPackage) :
    Prog Outcome := do
  match ← call (.lockVersion package.name package.version) with
  | some existing =>
    call .rollback
    if existing = package.sha256 then ensureArtifact formats body package else pure .versionExists
  | none => writeVersion formats body package (.updateSkill package)

def persist (formats : Formats) (body : Bytes) (package : ParsedPackage) : Prog Outcome := do
  if ← call (.lockSkill package.name) then persistVersion formats body package
  else if ← call (.insertSkill package) then
    writeVersion formats body package (.insertSkill package)
  else if ← call (.lockSkill package.name) then persistVersion formats body package
  else
    call .rollback
    pure .internal

def registerPackage (formats : Formats) (body : Bytes) : Prog Unit := do
  match acceptUpload formats body with
  | .error err => call (.respond (.refused err))
  | .ok package => call (.respond (← persist formats body package))

/-! ### Deletions -/

/-- The deletion of the artifact, when no other version has it. -/
def dropArtifact (name version sha256 : String) : Prog (List Write) := do
  if ← call (.artifactUsed name version sha256) then pure []
  else
    match ← call (.lockArtifact sha256) with
    | some _ => pure [.deleteArtifact sha256]
    | none => pure []

def dropVersion (name version sha256 : String) : Prog Outcome := do
  if ← call (.versionInUse name version) then
    call .rollback
    pure .versionInUse
  else
    let writes ← dropArtifact name version sha256
    if ← call (.commit (.deleteVersion name version :: writes)) then pure .deleted
    else pure .internal

/-- `delete_version`. -/
def removeVersion (name version : String) : Prog Outcome := do
  if ← call (.lockSkill name) then
    match ← call (.lockVersion name version) with
    | some sha256 => dropVersion name version sha256
    | none =>
      call .rollback
      pure .versionUnknown
  else
    call .rollback
    pure .skillUnknown

def deleteVersion (name version : String) : Prog Unit := do
  call (.respond (← removeVersion name version))

/-! ### Requests for desired sets -/

/-- A program on the desired sets. -/
def onDesired {α : Type} : Desired.Prog α → Prog α
  | .done a => .done a
  | .perform op next => .perform (.desired op) fun reply => onDesired (next reply)

/-- No code changes the status of a version. -/
def versionRecord (package : ParsedPackage) : Desired.VersionRecord :=
  ⟨package.version, package.sha256, .published, package.minNodeVersion, package.platforms⟩

def installPlan (package : ParsedPackage) : Desired.InstallPlan :=
  ⟨package.name, package.version, package.sha256, package.minNodeVersion, package.platforms⟩

/-- `accepted_hash` gives a hash. -/
def acceptedHash (stored : String) (provided : Option String) : Bool :=
  match (provided.map Desired.trimmed).filter (· ≠ "") with
  | some provided =>
    provided.toList.map Char.toLower == (Desired.trimmed stored).toList.map Char.toLower
  | none => false

/-- Nothing for an unknown skill. -/
def requireVersions (name : String) : Prog (Option (List ParsedPackage)) := do
  if ← call (.skillExists name) then pure (some (← call (.loadVersions name))) else pure none

def publishedVersions (name : String) : Prog (List ParsedPackage) := do
  pure ((← requireVersions name).getD [])

structure InstallBody where
  version : String
  accepted : Option String
  dryRun : Bool

def install (setup : Setup) (name : String) (body : InstallBody) (slots : Desired.Slots) :
    Prog Unit := do
  if name ∈ reservedNames then pure ()
  else
    match (← requireVersions name).bind (·.find? fun row => row.version == body.version) with
    | none => pure ()
    | some row =>
      if acceptedHash row.capabilitiesSha256 body.accepted then
        onDesired (Desired.applyInstalls setup.desired [installPlan row] slots body.dryRun)
      else pure ()

def rollback (setup : Setup) (name : String) (toVersion : Option String) (slots : Desired.Slots) :
    Prog Unit := do
  if name ∈ reservedNames then pure ()
  else
    match ← requireVersions name with
    | none => pure ()
    | some versions =>
      match (toVersion.map Desired.trimmed).filter (· ≠ "") with
      | none =>
        onDesired (Desired.rollback setup.desired name none (versions.map versionRecord) slots)
      | some version =>
        match versions.find? fun row => row.version == version with
        | none => pure ()
        | some row =>
          onDesired (Desired.rollback setup.desired name (some (versionRecord row))
            (versions.map versionRecord) slots)

/-- The greatest version that matches. -/
def highestPublished (setup : Setup) (req : String) (versions : List ParsedPackage) :
    Option ParsedPackage :=
  (versions.filter fun row =>
      (setup.desired.precedence row.version).isSome && setup.matching req row.version).foldl
    (fun best row =>
      match best with
      | none => some row
      | some best =>
        if (setup.desired.precedence row.version).getD 0 <
            (setup.desired.precedence best.version).getD 0 then some best
        else some row)
    none

structure BundleItem where
  skillName : String
  versionReq : String
  accepted : Option String

/-- The plans for the items of a bundle, or nothing when one of them is refused. -/
def bundlePlans (setup : Setup) : List BundleItem → Prog (Option (List Desired.InstallPlan))
  | [] => pure (some [])
  | item :: items => do
    if item.skillName ∈ reservedNames then bundlePlans setup items
    else
      match highestPublished setup item.versionReq (← publishedVersions item.skillName) with
      | none => pure none
      | some best =>
        if acceptedHash best.capabilitiesSha256 item.accepted then
          pure ((← bundlePlans setup items).map (installPlan best :: ·))
        else pure none

def installBundle (setup : Setup) (items : List BundleItem) (slots : Desired.Slots)
    (dryRun : Bool) : Prog Unit := do
  match ← bundlePlans setup items with
  | none => pure ()
  | some plans => onDesired (Desired.applyInstalls setup.desired plans slots dryRun)

def uninstall (name : String) (slots : Desired.Slots) (force inUse : Bool) : Prog Unit := do
  if name ∈ reservedNames then pure ()
  else
    match ← requireVersions name with
    | none => pure ()
    | some _ => onDesired (Desired.uninstall name slots force inUse)

inductive Request where
  | upload (body : Bytes)
  | delete (name version : String)
  | install (name : String) (body : InstallBody) (slots : Desired.Slots)
  | rollback (name : String) (toVersion : Option String) (slots : Desired.Slots)
  | installBundle (items : List BundleItem) (slots : Desired.Slots) (dryRun : Bool)
  | uninstall (name : String) (slots : Desired.Slots) (force inUse : Bool)

def Request.prog (setup : Setup) : Request → Prog Unit
  | .upload body => registerPackage setup.formats body
  | .delete name version => deleteVersion name version
  | .install name body slots => Catalog.install setup name body slots
  | .rollback name toVersion slots => Catalog.rollback setup name toVersion slots
  | .installBundle items slots dryRun => Catalog.installBundle setup items slots dryRun
  | .uninstall name slots force inUse => Catalog.uninstall name slots force inUse

/-! ## The center -/

structure Center where
  tables : Tables
  desired : Desired.Center
  /-- The nodes that a row of `node_skills_desired` was ever written for. -/
  nodes : List String
  holder : Lock → Option Nat
  /-- What the plain reads of an open transaction are from. -/
  snapshots : Nat → Option Tables
  /-- The versions that were deleted since a request began. -/
  gone : Nat → List (String × String)
  /-- The versions that became desired since a deletion looked for users. -/
  taken : Nat → List (String × String)

def Center.free (center : Center) (t : Nat) (lock : Lock) : Bool :=
  (center.holder lock).all (· == t)

def Center.lock (center : Center) (t : Nat) (lock : Lock) : Center :=
  { center with holder := Function.update center.holder lock (some t) }

/-- The end of a transaction on the catalog. -/
def Center.finish (center : Center) (t : Nat) : Center :=
  { center with
    holder := fun lock => if center.holder lock = some t then none else center.holder lock
    snapshots := Function.update center.snapshots t none }

/-- The versions that writes delete. -/
def deletedBy (writes : List Write) : List (String × String) :=
  writes.filterMap fun
    | .deleteVersion name version => some (name, version)
    | _ => none

/-- The versions that writes make desired. -/
def wantedBy (writes : List Desired.NodeWrite) : List (String × String) :=
  writes.filterMap fun write =>
    match write.action with
    | .upsert row => some (write.skillName, row.version)
    | .delete => none

def Center.commit (center : Center) (tables : Tables) (writes : List Write) : Center :=
  { center with tables, gone := fun t => deletedBy writes ++ center.gone t }

/-- What a transaction is to write to the desired sets. -/
def Center.pending (center : Center) (t : Nat) : List Desired.NodeWrite :=
  match center.desired.txs t with
  | some tx => tx.writes
  | none => []

/-- An operation on the desired sets led to `desired`. -/
def Center.desire (center : Center) (t : Nat) (op : Desired.Op) (desired : Desired.Center) :
    Center :=
  match op with
  | .commit => { center with
      desired
      nodes := (center.pending t).map (·.nodeId) ++ center.nodes
      taken := fun t' => wantedBy (center.pending t) ++ center.taken t' }
  | _ => { center with desired }

/-- A row of `node_skills_desired` names the version. -/
def Center.inUse (center : Center) (name version : String) : Bool :=
  center.nodes.any fun nodeId =>
    ((center.desired.tables.desired nodeId).lookup name).any fun row => row.version == version

/-- The reply and the center after an operation, or nothing when it waits for a lock.  The
choice is whether a version is reported by a node or pinned by a bundle. -/
def exec (t : Nat) : (op : Op) → Bool → Center → Option (op.Reply × Center)
  | .lockSkill name, _, center =>
    if center.free t (.skill name) then
      if (center.tables.skills name).isSome then some (true, center.lock t (.skill name))
      else some (false, center)
    else none
  | .insertSkill package, _, center =>
    if center.free t (.skill package.name) then
      if (center.tables.skills package.name).isSome then some (false, center)
      else some (true, center.lock t (.skill package.name))
    else none
  | .lockVersion name version, _, center =>
    some ((center.tables.version name version).map (·.sha256), center)
  | .lockArtifact sha256, _, center =>
    if center.free t (.artifact sha256) then
      match center.tables.artifacts sha256 with
      | some data => some (some data.length, center.lock t (.artifact sha256))
      | none => some (none, center)
    else none
  | .insertArtifact sha256, _, center =>
    if center.free t (.artifact sha256) then
      if (center.tables.artifacts sha256).isSome then some (false, center)
      else some (true, center.lock t (.artifact sha256))
    else none
  | .artifactExists sha256, _, center => some ((center.tables.artifacts sha256).isSome, center)
  | .versionInUse name version, elsewhere, center =>
    some (center.inUse name version || elsewhere, { center with
      snapshots := Function.update center.snapshots t (some center.tables)
      taken := Function.update center.taken t [] })
  | .artifactUsed name version sha256, _, center =>
    (center.snapshots t).map fun snapshot =>
      (snapshot.versions.any fun row => !row.holds name version && row.sha256 == sha256, center)
  | .commit writes, _, center =>
    match applyAll writes center.tables with
    | some tables => some (true, (center.commit tables writes).finish t)
    | none => some (false, center.finish t)
  | .rollback, _, center => some ((), center.finish t)
  | .skillExists name, _, center => some ((center.tables.skills name).isSome, center)
  | .loadVersions name, _, center =>
    some (center.tables.versions.filter fun row => row.name == name, center)
  | .desired op, _, center =>
    (Desired.exec t op center.desired).map fun (reply, desired) =>
      (reply, center.desire t op desired)
  | .respond _, _, center => some ((), center)

/-- The history of a thread. -/
structure Loc where
  request : Option Request
  /-- The locks of its transaction. -/
  locked : List Lock
  /-- What it read of a version that it locked. -/
  seen : Option (String × String × Option String)
  /-- The artifacts that it locked. -/
  stored : List String
  /-- The version that it found no user of. -/
  checked : Option (String × String)
  /-- The versions that it read. -/
  versions : List ParsedPackage

def Loc.fresh (request : Option Request) : Loc := ⟨request, [], none, [], none, []⟩

/-- The transaction ends. -/
def Loc.finish (loc : Loc) : Loc := { loc with locked := [], stored := [], checked := none }

def note (op : Op) (reply : op.Reply) (loc : Loc) : Loc :=
  match op, reply with
  | .lockSkill name, found =>
    if found then { loc with locked := .skill name :: loc.locked } else loc
  | .insertSkill package, inserted =>
    if inserted then { loc with locked := .skill package.name :: loc.locked } else loc
  | .lockVersion name version, found => { loc with seen := some (name, version, found) }
  | .lockArtifact sha256, size =>
    if size.isSome then
      { loc with locked := .artifact sha256 :: loc.locked, stored := sha256 :: loc.stored }
    else loc
  | .insertArtifact sha256, inserted =>
    if inserted then { loc with locked := .artifact sha256 :: loc.locked } else loc
  | .versionInUse name version, used =>
    if used then loc else { loc with checked := some (name, version) }
  | .commit _, _ => loc.finish
  | .rollback, _ => loc.finish
  | .loadVersions _, versions => { loc with versions := loc.versions ++ versions }
  | _, _ => loc

inductive Event where
  | start (t : Nat) (request : Request)
  /-- The request fails, and its transaction is rolled back. -/
  | abort (t : Nat)

abbrev System := Sys Op.Reply Nat Loc Center

/-- The thread has no transaction. -/
def Center.outside (center : Center) (t : Nat) : Bool :=
  (center.snapshots t).isNone && (center.desired.txs t).isNone

def fire (setup : Setup) : Event → System → Option System
  | .start t request, sys =>
    if sys.idle t && sys.shared.outside t then
      some ⟨{ sys.shared with gone := Function.update sys.shared.gone t [] },
        Function.update sys.threads t ⟨request.prog setup, .fresh (some request)⟩⟩
    else none
  | .abort t, sys =>
    some ⟨{ sys.shared.finish t with desired := sys.shared.desired.finish t },
      Function.update sys.threads t ⟨.done (), .fresh none⟩⟩

def center (setup : Setup) : Machine Op.Reply Nat Loc Center Bool Event where
  exec t _ op elsewhere center := exec t op elsewhere center
  note _ op reply loc := note op reply loc
  fire := fire setup

/-- Nothing was uploaded, and no skill is desired. -/
def initial (hosts : String → Skills.Host) : System where
  shared := ⟨.initial, (Desired.initial hosts).shared, [], fun _ => none, fun _ => none,
    fun _ => [], fun _ => []⟩
  threads _ := ⟨.done (), .fresh none⟩

end Novbot.Catalog
