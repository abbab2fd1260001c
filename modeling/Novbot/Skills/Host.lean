import Novbot.Skills.Store

/-!
# The skill host

`open`, `snapshot` and `reconcile` of `SkillHost`.  A reconcile goes through the
desired skills one after the other; each of these turns makes attempts at an install
until one succeeds, fails for good, or the limits are reached.  The clock of the
limits starts with the reconcile and runs through all turns.

The semaphore of runs is left out, and so are the interleavings of two reconciles,
which a lock excludes.
-/

namespace Novbot.Skills

open Novbot.Package Text

structure ActiveSkill where
  version : String
  sha256 : String
  previous : List String
  timeoutMs : Nat
  memoryBytes : Nat
  deriving DecidableEq, Repr

abbrev ActiveSkills := SortedMap String ActiveSkill

inductive ReportState where
  | installed
  | failed
  deriving DecidableEq, Repr

structure ReportedSkill where
  name : String
  version : String
  sha256 : String
  state : ReportState
  reason : Option Reason
  reasonDetail : String
  attempts : Nat
  previousSha256 : List String
  deriving DecidableEq, Repr

structure SkillSnapshot where
  appliedGeneration : Int
  skills : List ReportedSkill
  deriving DecidableEq, Repr

structure Inner where
  generation : Int
  seen : Int
  skills : ActiveSkills
  lastReport : Option SkillSnapshot
  bootFailures : List ReportedSkill
  policy : SkillPolicy

/-- A running host and its files. -/
structure Host where
  inner : Inner
  disk : Disk

/-! ## Opening -/

/-- What opening does to the files, and what it finds. -/
structure Opening where
  disk : Disk
  failures : List ReportedSkill

/-- Verifies one skill of `state.json`. -/
def openSkill (formats : Formats) (stamp : String) (opening : Opening) (name : String)
    (skill : DiskSkill) : Except String Opening :=
  match verifyActive formats opening.disk.store skill.sha256 with
  | .ok () => .ok opening
  | .error err => do
    let disk ← quarantineStore stamp skill.sha256 opening.disk
    return ⟨disk, opening.failures ++ [⟨name, skill.version, skill.sha256, .failed,
      some .storeTampered, err.detail, 0, skill.previous⟩]⟩

def openedState (disk : DiskState) (failures : List ReportedSkill) : DiskState :=
  ⟨0, disk.skills.filter fun name _ => !(failures.map (·.name)).contains name⟩

def openedSkill (skill : DiskSkill) : ActiveSkill :=
  ⟨skill.version, skill.sha256, skill.previous, defaultPolicy.maxTimeoutMs,
    defaultPolicy.maxMemoryMb * (1024 * 1024)⟩

/-- `SkillHost::open`.  `writeFails` is the error of writing `state.json`. -/
def openHost (formats : Formats) (stamp : String) (writeFails : Option String) (disk : Disk) :
    Except String Host := do
  let state := disk.state.getD ⟨0, .empty⟩
  let opening ← state.skills.entries.foldlM
    (fun opening (name, skill) => openSkill formats stamp opening name skill) ⟨disk, []⟩
  let inner := fun (state : DiskState) => (⟨state.generation, state.generation,
    state.skills.map fun _ skill => openedSkill skill, none, opening.failures, defaultPolicy⟩ : Inner)
  if opening.failures.isEmpty then return ⟨inner state, opening.disk⟩
  else
    let state := openedState state opening.failures
    match writeFails with
    | some err => throw err
    | none => return ⟨inner state, { opening.disk with state := some state }⟩

/-! ## Snapshots -/

def sortByName (skills : List ReportedSkill) : List ReportedSkill :=
  skills.mergeSort fun left right => left.name ≤ right.name

def activeReport (name : String) (skill : ActiveSkill) : ReportedSkill :=
  ⟨name, skill.version, skill.sha256, .installed, none, "", 0, skill.previous⟩

def Inner.built (inner : Inner) : SkillSnapshot :=
  ⟨inner.generation, sortByName
    (inner.skills.entries.map (fun (name, skill) => activeReport name skill) ++ inner.bootFailures)⟩

def Inner.snapshot (inner : Inner) : SkillSnapshot :=
  match inner.lastReport with
  | some report =>
    if report.appliedGeneration = inner.generation ∧ inner.bootFailures = [] then report
    else inner.built
  | none => inner.built

/-! ## One attempt -/

section

variable (setup : Setup) (attempt : Attempt) (skill : DesiredSkill)

def cacheFileName (sha256 : String) : String := sha256 ++ "." ++ setup.engineId ++ ".cwasm"

/-- Compiles the module unless it is compiled already. -/
def ensureCache (wasm : Bytes) (disk : Disk) : Except InstallError Unit × Disk :=
  let path := cacheFileName setup skill.sha256
  if (disk.cache.lookup path).any fun bytes => bytes ≠ [] then (.ok (), disk)
  else
    match setup.compile wasm with
    | .error err => (.error ⟨.compileFailed, err⟩, disk)
    | .ok cwasm =>
      match attempt.io .cache with
      | some err => (.error ⟨.compileFailed, "cache write: " ++ err⟩, disk)
      | none => (.ok (), { disk with cache := disk.cache.insert path cwasm })

/-- The partial file of a skill. -/
def Disk.setPart (disk : Disk) (sha256 : String) (part : Option Bytes) : Disk :=
  { disk with downloads :=
      match part with
      | some bytes => disk.downloads.insert sha256 bytes
      | none => disk.downloads.filter fun name _ => name ≠ sha256 }

/-- Checks a fetched package. -/
def checkFetched (bytes : Bytes) : Except InstallError Package := do
  let package ← openPackage setup.formats bytes skill.name skill.version
  if !package.manifest.platforms.contains setup.platform then
    throw ⟨.platformUnsupported, "platform " ++ setup.platform ++ " is not in the manifest"⟩
  return package

/-- The package, unless it is in the store. -/
def obtainPackage (disk : Disk) : Except InstallError (Option Package) × Disk :=
  if storeVerified setup.formats disk.store skill.sha256 then (.ok none, disk)
  else
    let fetched := fetchPackage setup.formats.sha256 attempt skill (disk.downloads.lookup skill.sha256)
    let disk := disk.setPart skill.sha256 fetched.part
    match fetched.outcome with
    | .error err => (.error err, disk)
    | .ok bytes => ((checkFetched setup skill bytes).map some, disk)

def readModule (dir : Directory) : Except InstallError Bytes :=
  match attempt.io .readModule, dir.lookup "module.wasm" with
  | none, some wasm => .ok wasm
  | some err, _ => .error (fetchFailed ("read module.wasm: " ++ err))
  | none, none => .error (fetchFailed "read module.wasm: not found")

/-- The module and the limits, from the package or from the store. -/
def readPackage (store : SortedMap String Directory) :
    Option Package → Except InstallError (Bytes × LimitsToml)
  | some package =>
    match package.files.lookup "module.wasm" with
    | some wasm => .ok (wasm, ⟨package.manifest.timeoutMs, package.manifest.memoryMb⟩)
    | none => .error (manifestError "module.wasm is required")
  | none => do
    let dir := (store.lookup skill.sha256).getD .empty
    return (← readModule attempt dir, ← readStoredManifest setup.formats attempt dir)

def sealPackage (package : Option Package) (disk : Disk) : Except InstallError Unit × Disk :=
  match package with
  | none => (.ok (), disk)
  | some package =>
    let (sealed, store) := sealStore setup.formats attempt skill package disk.store
    (sealed, { disk with store })

variable (policy : SkillPolicy) (active : ActiveSkills)

/-- The versions that the skill had before. -/
def previousOf : List String :=
  match active.lookup skill.name with
  | some current =>
    if current.sha256 ≠ skill.sha256 then current.sha256 :: current.previous else current.previous
  | none => []

/-- An entry names a hash. -/
def ActiveSkill.names (entry : ActiveSkill) (sha256 : String) : Bool :=
  entry.sha256 = sha256 || entry.previous.contains sha256

def shaReferenced (candidate : String) (previous : List String) : Bool :=
  candidate = skill.sha256 || previous.contains candidate ||
    active.entries.any fun (name, entry) => name ≠ skill.name && entry.names candidate

/-- Removes what is not referenced any more of the dropped versions. -/
def removeDropped (previous dropped : List String) (store : SortedMap String Directory) :
    SortedMap String Directory :=
  dropped.foldl (fun store sha =>
    if shaReferenced skill active sha previous then store
    else removeStore (attempt.left .trimmed sha) sha store) store

/-- The end of an attempt, with the package in the store. -/
def activate (limits : LimitsToml) (disk : Disk) : ActiveSkill × Disk :=
  let (previous, dropped) := trimPrevious (previousOf skill active) policy.keepPreviousVersions
  (⟨skill.version, skill.sha256, previous, clampTimeoutMs limits.timeoutMs policy.maxTimeoutMs,
      clampMemoryBytes limits.memoryMb policy.maxMemoryMb⟩,
    { disk with store := removeDropped attempt skill active previous dropped disk.store })

def tryInstall (disk : Disk) : Except InstallError ActiveSkill × Disk :=
  if skill.abi ≠ abi then
    (.error ⟨.abiUnsupported, "skill abi " ++ skill.abi ++ " is not " ++ abi⟩, disk)
  else if !storeHasRoom setup.formats disk.store skill.sha256 skill.sizeBytes policy.storeQuotaBytes then
    (.error ⟨.diskQuotaExceeded,
      "store quota of " ++ toString policy.storeQuotaBytes ++ " bytes would be exceeded"⟩, disk)
  else
    match obtainPackage setup attempt skill disk with
    | (.error err, disk) => (.error err, disk)
    | (.ok package, disk) =>
      match readPackage setup attempt skill disk.store package with
      | .error err => (.error err, disk)
      | .ok (wasm, limits) =>
        match ensureCache setup attempt skill wasm disk with
        | (.error err, disk) => (.error err, disk)
        | (.ok (), disk) =>
          match sealPackage setup attempt skill package disk with
          | (.error err, disk) => (.error err, disk)
          | (.ok (), disk) =>
            let (installed, disk) := activate attempt skill policy active limits disk
            (.ok installed, disk)

end

/-! ## One turn -/

/-- What a turn comes to: the entry, or an error, each with the number of attempts for
the report. -/
structure Outcome where
  result : Except (InstallError × Nat) (ActiveSkill × Nat)
  /-- The attempts that were made. -/
  made : Nat
  disk : Disk
  elapsed : Nat

section

variable (setup : Setup) (policy : SkillPolicy) (env : Nat → Attempt) (active : ActiveSkills)
  (skill : DesiredSkill)

/-- The loop of `install_skill`, with the attempts that the budget leaves. -/
def installLoop : Nat → Nat → InstallError → Disk → Nat → Outcome
  | remaining, attempts, last, disk, elapsed =>
    if elapsed > setup.limits.maxElapsed then
      ⟨.error (⟨.installTimeout, last.detail⟩, max attempts 1), attempts, disk, elapsed⟩
    else
      match remaining with
      | 0 => ⟨.error (last, attempts), attempts, disk, elapsed⟩
      | remaining + 1 =>
        let attempt := env attempts
        let elapsed := elapsed + attempt.took
        let attempts := attempts + 1
        match tryInstall setup attempt skill policy active disk with
        | (.ok installed, disk) => ⟨.ok (installed, attempts), attempts, disk, elapsed⟩
        | (.error err, disk) =>
          if !err.reason.retryable then ⟨.error (err, attempts), attempts, disk, elapsed⟩
          else if remaining = 0 then ⟨.error (err, attempts), attempts, disk, elapsed⟩
          else
            let delay := backoff attempts setup.limits
            if elapsed + delay > setup.limits.maxElapsed then
              ⟨.error (⟨.installTimeout, err.detail⟩, attempts), attempts, disk, elapsed⟩
            else installLoop remaining attempts err disk (elapsed + delay + attempt.late)

/-- `elapsed` is what the clock of the reconcile shows. -/
def installSkill (disk : Disk) (elapsed : Nat) : Outcome :=
  installLoop setup policy env active skill (max setup.limits.maxAttempts 1) 0
    (fetchFailed "install did not start") disk elapsed

end

/-! ## Reconciling -/

/-- Where a reconcile is. -/
structure Progress where
  disk : Disk
  active : ActiveSkills
  elapsed : Nat
  reports : List ReportedSkill

def installedReport (skill : DesiredSkill) (installed : ActiveSkill) (attempts : Nat) : ReportedSkill :=
  ⟨skill.name, skill.version, skill.sha256, .installed, none, "", attempts, installed.previous⟩

def failedReport (skill : DesiredSkill) (current : Option ActiveSkill) (err : InstallError)
    (attempts : Nat) : ReportedSkill :=
  ⟨skill.name, skill.version, skill.sha256, .failed, some err.reason,
    redactTicket err.detail skill.fetchTicket, attempts,
    match current with
    | some current => current.sha256 :: current.previous
    | none => []⟩

section

variable (setup : Setup) (policy : SkillPolicy)

/-- The outcome of the turn of a skill. -/
def Progress.outcome (progress : Progress) (env : Nat → Attempt) (skill : DesiredSkill) : Outcome :=
  installSkill setup policy env progress.active skill progress.disk progress.elapsed

def Progress.turn (progress : Progress) (env : Nat → Attempt) (skill : DesiredSkill) : Progress :=
  let outcome := progress.outcome setup policy env skill
  match outcome.result with
  | .ok (installed, attempts) =>
    ⟨outcome.disk, progress.active.insert skill.name installed, outcome.elapsed,
      progress.reports ++ [installedReport skill installed attempts]⟩
  | .error (err, attempts) =>
    ⟨outcome.disk, progress.active, outcome.elapsed,
      progress.reports ++ [failedReport skill (progress.active.lookup skill.name) err attempts]⟩

/-- The turns of the skills, each with its attempts. -/
def Progress.turns : List DesiredSkill → (Nat → Nat → Attempt) → Progress → Progress
  | [], _, progress => progress
  | skill :: skills, env, progress =>
    Progress.turns skills (fun i => env (i + 1)) (progress.turn setup policy (env 0) skill)

end

/-- Nothing is to be done for a desired set. -/
def Inner.isNoop (inner : Inner) (desired : DesiredSet) : Bool :=
  desired.generation < inner.generation ||
    (desired.generation = inner.generation && inner.bootFailures.isEmpty)

/-- What happens during a reconcile: the attempts of each turn, and whether
`state.json` is written. -/
structure Conditions where
  attempts : Nat → Nat → Attempt
  writeFails : Option String

/-- The skills that stay active before any turn. -/
def retained (active : ActiveSkills) (desired : List DesiredSkill) : ActiveSkills :=
  active.filter fun name _ => (desired.map (·.name)).contains name

def diskState (generation : Int) (active : ActiveSkills) : DiskState :=
  ⟨generation, active.map fun _ skill => ⟨skill.sha256, skill.version, skill.previous⟩⟩

/-- Where the turns of a reconcile begin. -/
def Host.begin (host : Host) (desired : DesiredSet) : Progress :=
  ⟨host.disk, retained host.inner.skills desired.skills, 0, []⟩

/-- Where they end. -/
def Host.settled (setup : Setup) (host : Host) (desired : DesiredSet)
    (conditions : Conditions) : Progress :=
  (host.begin desired).turns setup desired.policy desired.skills conditions.attempts

def Host.reconcile (setup : Setup) (host : Host) (desired : DesiredSet) (conditions : Conditions) :
    Host × SkillSnapshot :=
  if host.inner.isNoop desired then (host, host.inner.snapshot)
  else
    let progress := host.settled setup desired conditions
    let snapshot : SkillSnapshot := ⟨desired.generation, sortByName progress.reports⟩
    let disk :=
      if conditions.writeFails.isSome then progress.disk
      else { progress.disk with state := some (diskState desired.generation progress.active) }
    (⟨⟨desired.generation, max host.inner.seen desired.generation, progress.active, some snapshot, [],
        desired.policy⟩, disk⟩, snapshot)

end Novbot.Skills
