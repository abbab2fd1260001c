import Novbot.Package.Archive

/-!
# Packages on the node

`load_package_inner` of `novbot-node/src/skills/package.rs`: the node checks
every package again before it installs it.  `capabilities` of the manifest
become grant strings, which a run hands to the runtime.
-/

namespace Novbot.Skills

open Package Text

/-- Why an install fails. -/
inductive Reason where
  | invalidArchive
  | invalidManifest
  | abiUnsupported
  | capabilityUnsupported
  | hashMismatch
  | fetchFailed
  | installTimeout
  | diskQuotaExceeded
  | platformUnsupported
  | compileFailed
  | storeTampered
  deriving DecidableEq, Repr

def Reason.text : Reason → String
  | .invalidArchive => "invalid_archive"
  | .invalidManifest => "invalid_manifest"
  | .abiUnsupported => "abi_unsupported"
  | .capabilityUnsupported => "capability_unsupported"
  | .hashMismatch => "hash_mismatch"
  | .fetchFailed => "fetch_failed"
  | .installTimeout => "install_timeout"
  | .diskQuotaExceeded => "disk_quota_exceeded"
  | .platformUnsupported => "platform_unsupported"
  | .compileFailed => "compile_failed"
  | .storeTampered => "store_tampered"

structure InstallError where
  reason : Reason
  detail : String
  deriving DecidableEq, Repr

/-- Install catalog for this node. -/
def catalog : List String :=
  ["fs.read", "fs.stat", "fs.list", "net.listening_ports.read", "sys.info.read",
    "sys.time_sync.read", "env.read", "sys.metrics.read", "proc.list.read", "net.interfaces.read"]

structure Manifest where
  name : String
  version : String
  abi : String
  platforms : List String
  timeoutMs : Option Nat
  memoryMb : Option Nat
  files : SortedMap String String
  grants : List String

/-- A package with its files. -/
structure Package where
  manifest : Manifest
  files : SortedMap String Bytes

/-! ## The manifest -/

structure LimitsToml where
  timeoutMs : Option Nat
  memoryMb : Option Nat
  deriving DecidableEq, Repr

structure RuntimeToml where
  kind : String
  abi : String
  limits : LimitsToml
  deriving DecidableEq, Repr

structure CapabilityToml where
  name : Option String
  scope : Option String
  grant : Option String
  deriving DecidableEq, Repr

structure ManifestToml where
  schemaVersion : Int
  name : String
  version : String
  platforms : List String
  runtime : RuntimeToml
  files : SortedMap String String
  capabilities : List CapabilityToml

def LimitsToml.decode : Toml.Decoder LimitsToml := fun value => do
  let get ← Toml.fields ["timeout_ms", "memory_mb"] value
  return ⟨← Toml.optional get "timeout_ms" Toml.natural, ← Toml.optional get "memory_mb" Toml.natural⟩

def RuntimeToml.decode : Toml.Decoder RuntimeToml := fun value => do
  let get ← Toml.fields ["kind", "abi", "limits"] value
  return ⟨← Toml.required get "kind" Toml.string, ← Toml.required get "abi" Toml.string,
    ← Toml.orDefault get "limits" LimitsToml.decode ⟨none, none⟩⟩

def CapabilityToml.decode : Toml.Decoder CapabilityToml := fun value => do
  let get ← Toml.fields ["name", "scope", "grant"] value
  return ⟨← Toml.optional get "name" Toml.string, ← Toml.optional get "scope" Toml.string,
    ← Toml.optional get "grant" Toml.string⟩

def ManifestToml.decode : Toml.Decoder ManifestToml := fun value => do
  let get ← Toml.fields ["schema_version", "name", "version", "platforms", "runtime", "files",
    "capabilities"] value
  return {
    schemaVersion := ← Toml.required get "schema_version" Toml.integer
    name := ← Toml.required get "name" Toml.string
    version := ← Toml.required get "version" Toml.string
    platforms := ← Toml.orDefault get "platforms" (Toml.list Toml.string) []
    runtime := ← Toml.required get "runtime" RuntimeToml.decode
    files := ← Toml.required get "files" Toml.stringMap
    capabilities := ← Toml.orDefault get "capabilities" (Toml.list CapabilityToml.decode) [] }

/-- A non-empty `grant` is taken as it is, before the name and the scope. -/
def grantString (cap : CapabilityToml) : Except InstallError String :=
  match cap.grant.filter (· ≠ "") with
  | some grant => .ok grant
  | none =>
    match cap.name.filter (· ≠ "") with
    | none => .error ⟨.invalidManifest, "capability is missing a name"⟩
    | some name =>
      match cap.scope.filter (· ≠ "") with
      | some scope => .ok (name ++ ":" ++ scope)
      | none => .ok name

def archiveError (detail : String) : InstallError := ⟨.invalidArchive, detail⟩

def manifestError (detail : String) : InstallError := ⟨.invalidManifest, detail⟩

def normalizeRelPath (path : Bytes) : Except InstallError String := normalizeRel archiveError path

def blank (text : String) : Bool := (trim text.toList).isEmpty

variable (formats : Formats)

/-- `manifest_from_str`. -/
def parseManifest (text : String) : Except InstallError Manifest := do
  let raw ← ((formats.toml text).bind ManifestToml.decode).mapError
    fun err => manifestError ("skill.toml: " ++ err)
  if raw.schemaVersion ≠ 1 then throw (manifestError "schema_version must be 1")
  if raw.runtime.kind ≠ "wasm" then throw (manifestError "runtime.kind must be wasm")
  if blank raw.name || blank raw.version then throw (manifestError "name and version are required")
  let files ← declaredFiles (fun path => normalizeRelPath (utf8 path.toList))
    (fun path => manifestError ("duplicate [files] entry: " ++ path)) raw.files
  let grants ← raw.capabilities.mapM grantString
  return ⟨raw.name, raw.version, raw.runtime.abi, raw.platforms, raw.runtime.limits.timeoutMs,
    raw.runtime.limits.memoryMb, files, grants⟩

/-! ## The package -/

def endsWithCwasm (path : String) : Bool := ".cwasm".toList.isSuffixOf path.toList

def unpackRules : UnpackRules InstallError where
  fail := archiveError
  plain kind := kind = .regular || kind = .continuous
  checkDirectory _ := .ok ()
  checkFile path :=
    if endsWithCwasm path then .error (archiveError "archive contains a precompiled cwasm entry")
    else .ok ()

def unpack (bytes : Bytes) : Except InstallError (SortedMap String Bytes) :=
  unpackWith unpackRules formats bytes

def verifyFileHashes (files : SortedMap String Bytes) (declared : SortedMap String String) :
    Except InstallError Unit :=
  verifyHashes formats.sha256 archiveError manifestError files declared

/-- The name of the capability a grant is for. -/
def grantName (grant : String) : String :=
  match splitOnce ':' grant.toList with
  | some (name, _) => .ofList name
  | none => grant

def checkGrant (grant : String) : Except InstallError Unit :=
  if grantName grant ∈ catalog then .ok ()
  else .error ⟨.capabilityUnsupported, "grant " ++ grant ++ " is not in this node's catalog"⟩

/-- The package is the one that is expected, if one is. -/
def checkExpected (manifest : Manifest) : Option (String × String) → Except InstallError Unit
  | some (name, version) =>
    if manifest.name ≠ name ∨ manifest.version ≠ version then
      .error (manifestError ("manifest " ++ manifest.name ++ "@" ++ manifest.version ++
        " does not match desired " ++ name ++ "@" ++ version))
    else .ok ()
  | none => .ok ()

def loadPackageInner (bytes : Bytes) (expected : Option (String × String)) :
    Except InstallError Package := do
  if bytes.length > packageMax then throw (archiveError "package exceeds 16 MiB")
  let files ← unpack formats bytes
  let some tomlBytes := files.lookup "skill.toml" | throw (manifestError "skill.toml is required")
  let some tomlText := fromUtf8 tomlBytes | throw (manifestError "skill.toml is not utf-8")
  let manifest ← parseManifest formats (.ofList tomlText)
  checkExpected manifest expected
  if manifest.abi ≠ abi then
    throw ⟨.abiUnsupported, "manifest abi " ++ manifest.abi ++ " is not " ++ abi⟩
  verifyFileHashes formats files manifest.files
  if !files.contains "module.wasm" then throw (manifestError "module.wasm is required")
  manifest.grants.forM checkGrant
  return ⟨manifest, files⟩

def openPackage (bytes : Bytes) (expectName expectVersion : String) : Except InstallError Package :=
  loadPackageInner formats bytes (some (expectName, expectVersion))

/-- Opens an archive and validates it against the manifest stored inside. -/
def loadPackage (bytes : Bytes) : Except InstallError Package := loadPackageInner formats bytes none

/-- The hash that the manifest gives for `module.wasm`. -/
def moduleHashFromToml (text : String) : Except InstallError String := do
  let manifest ← parseManifest formats text
  match manifest.files.lookup "module.wasm" with
  | some hash => return hash
  | none => throw (manifestError "module.wasm hash is missing")

end Novbot.Skills
