import Novbot.Catalog.Capability
import Novbot.Package.Archive

/-!
# Packages at upload

`parse_package` of the center's catalog with the size check before it.  What the
center keeps of an accepted package is a `ParsedPackage`; the JSON columns it
writes of the same data are left out.
-/

namespace Novbot.Catalog

open Package Text

/-- `manifest.runtime`. -/
structure RuntimeToml where
  kind : String
  abi : String
  deriving DecidableEq, Repr

structure ManifestToml where
  schemaVersion : Int
  name : String
  version : String
  displayName : Option String
  description : Option String
  publisher : Option String
  platforms : List String
  minNodeVersion : Option String
  runtime : RuntimeToml
  files : SortedMap String String
  capabilities : List CapabilityToml

structure ParsedPackage where
  name : String
  version : String
  semverMajor : Nat
  semverMinor : Nat
  semverPatch : Nat
  prerelease : Option String
  displayName : String
  description : String
  publisher : Option String
  platforms : List String
  minNodeVersion : Option String
  manifestToml : String
  paramsSchemaJson : String
  outputSchemaJson : Option String
  /-- `[files]`, as `manifest_json` has it. -/
  files : SortedMap String String
  capabilities : List CapabilityView
  capabilitiesSha256 : String
  lintWarnings : List String
  signatureStatus : String
  sha256 : String
  sizeBytes : Nat

/-! ## The manifest -/

def CapabilityToml.decode : Toml.Decoder CapabilityToml := fun value => do
  let get ← Toml.fields ["name", "scope", "reason"] value
  return ⟨← Toml.required get "name" Toml.string, ← Toml.optional get "scope" Toml.string,
    ← Toml.optional get "reason" Toml.string⟩

def RuntimeToml.decode : Toml.Decoder RuntimeToml := fun value => do
  let get ← Toml.fields ["kind", "abi"] value
  return ⟨← Toml.required get "kind" Toml.string, ← Toml.required get "abi" Toml.string⟩

def ManifestToml.decode : Toml.Decoder ManifestToml := fun value => do
  let get ← Toml.fields ["schema_version", "name", "version", "display_name", "description",
    "publisher", "platforms", "min_node_version", "runtime", "files", "capabilities"] value
  return {
    schemaVersion := ← Toml.required get "schema_version" Toml.integer
    name := ← Toml.required get "name" Toml.string
    version := ← Toml.required get "version" Toml.string
    displayName := ← Toml.optional get "display_name" Toml.string
    description := ← Toml.optional get "description" Toml.string
    publisher := ← Toml.optional get "publisher" Toml.string
    platforms := ← Toml.orDefault get "platforms" (Toml.list Toml.string) []
    minNodeVersion := ← Toml.optional get "min_node_version" Toml.string
    runtime := ← Toml.required get "runtime" RuntimeToml.decode
    files := ← Toml.required get "files" Toml.stringMap
    capabilities := ← Toml.orDefault get "capabilities" (Toml.list CapabilityToml.decode) [] }

/-! ## Files -/

def invalidArchive (message : String) : CatalogError := .invalidArchive message

def isAllowedFile (path : String) : Bool :=
  path ∈ ["skill.toml", "module.wasm", "schema/params.json", "schema/output.json", "README.md",
    "LICENSE"]

def unpackRules : UnpackRules CatalogError where
  fail := invalidArchive
  plain kind := kind = .regular
  checkDirectory path :=
    if path ≠ "schema" then .error (invalidArchive ("unexpected directory: " ++ path)) else .ok ()
  checkFile path :=
    if !isAllowedFile path then .error (invalidArchive ("unexpected archive entry: " ++ path))
    else .ok ()

def unpack (formats : Formats) (bytes : Bytes) : Except CatalogError (SortedMap String Bytes) :=
  unpackWith unpackRules formats bytes

def validateWasm (bytes : Bytes) : Except CatalogError Unit :=
  if bytes.isEmpty then .error (.invalidWasm "module.wasm is empty")
  else if bytes.take 4 ≠ [0x00, 0x61, 0x73, 0x6D] then
    .error (.invalidWasm "module.wasm does not start with wasm magic")
  else .ok ()

def textOf (message : String) (bytes : Bytes) : Except CatalogError String :=
  match fromUtf8 bytes with
  | some text => .ok (.ofList text)
  | none => .error (invalidArchive message)

variable (formats : Formats)

def jsonText (path : String) (bytes : Bytes) : Except CatalogError String := do
  let text ← textOf (path ++ " is not utf-8") bytes
  match formats.json.parse text with
  | some _ => return text
  | none => throw (invalidArchive (path ++ ": invalid json"))

def requireJsonText (files : SortedMap String Bytes) (path : String) : Except CatalogError String :=
  match files.lookup path with
  | some bytes => jsonText formats path bytes
  | none => .error (invalidArchive (path ++ " is required"))

def optionalJsonText (files : SortedMap String Bytes) (path : String) :
    Except CatalogError (Option String) :=
  match files.lookup path with
  | some bytes => (jsonText formats path bytes).map some
  | none => .ok none

def normalizeRelPath (path : Bytes) : Except CatalogError String := normalizeRel invalidArchive path

def normalizeRelStr (path : String) : Except CatalogError String :=
  if path.toList.contains '\x00' then .error (invalidArchive ("invalid [files] path: " ++ path))
  else (normalizeRelPath (utf8 path.toList)).mapError fun _ =>
    invalidArchive ("invalid [files] path: " ++ path)

def verifyFiles (files : SortedMap String Bytes) (declared : SortedMap String String) :
    Except CatalogError Unit :=
  verifyHashes formats.sha256 invalidArchive invalidArchive files declared

/-! ## Fields -/

def reservedNames : List String := ["host_info", "echo", "env_get"]

def validSkillName (name : List Char) : Bool :=
  match name with
  | [] => false
  | first :: rest =>
    2 ≤ name.length && name.length ≤ 63 && isAsciiLowercase first &&
      rest.all fun c => isAsciiLowercase c || isAsciiDigit c || c == '-'

/-- The length in bytes. -/
def byteLength (text : String) : Nat := (utf8 text.toList).length

/-- An optional field, trimmed, when it is not blank. -/
def trimmed (field : Option String) : Option String :=
  (field.map fun text => String.ofList (trim text.toList)).filter (· ≠ "")

def i32Max : Nat := 2147483647

/-- The version's parts fit their columns. -/
def checkVersion (version : Semver) : Except CatalogError Unit := do
  if byteLength version.text > 128 then throw (invalidArchive "version is too long")
  if version.major > i32Max then throw (invalidArchive "semver major is out of range")
  if version.minor > i32Max then throw (invalidArchive "semver minor is out of range")
  if version.patch > i32Max then throw (invalidArchive "semver patch is out of range")
  if byteLength version.pre > 128 then throw (invalidArchive "prerelease is too long")

def sensitiveFsScope (scope : String) : Bool :=
  let body := trimEndMatches (· == '/') scope.toList
  let path := if body.isEmpty then "/" else String.ofList body
  path ∈ ["/etc/shadow", "/etc/gshadow", "/etc/ssl/private", "/root"] ||
    "/etc/ssl/private/".toList.isPrefixOf path.toList || "/root/".toList.isPrefixOf path.toList

def collectLintWarnings (capabilities : List CapabilityView) : List String :=
  capabilities.filterMap fun cap =>
    match cap.scope with
    | some scope =>
      if cap.name ∈ ["fs.read", "fs.stat", "fs.list"] ∧ sensitiveFsScope scope then
        some (cap.name ++ " scope " ++ scope ++ " is a sensitive path")
      else none
    | none => none

/-- The limits of the descriptive fields. -/
def checkTexts (displayName : String) (publisher minNodeVersion : Option String)
    (platforms : List String) : Except CatalogError Unit := do
  if displayName.toList.length > 255 then throw (invalidArchive "display_name is too long")
  if publisher.any fun value => value.toList.length > 255 then
    throw (invalidArchive "publisher is too long")
  if minNodeVersion.any fun value => byteLength value > 64 then
    throw (invalidArchive "min_node_version is too long")
  platforms.forM fun platform =>
    if platform = "" ∨ byteLength platform > 128 then
      throw (invalidArchive "platforms entry is invalid")
    else pure ()

/-! ## Parsing -/

/-- The manifest's own fields, before its files are compared. -/
def checkManifest (manifest : ManifestToml) : Except CatalogError Semver := do
  if manifest.schemaVersion ≠ 1 then throw (invalidArchive "schema_version must be 1")
  if manifest.name ∈ reservedNames then throw .nameReserved
  if !validSkillName manifest.name.toList then
    throw (invalidArchive ("skill name is invalid: " ++ manifest.name))
  match formats.semver manifest.version with
  | none => throw (invalidArchive "version is not semver")
  | some version =>
    checkVersion version
    if manifest.runtime.kind ≠ "wasm" then throw (invalidArchive "runtime.kind must be wasm")
    if manifest.runtime.abi ≠ abi then throw (invalidArchive "runtime.abi must be novbot:skill@1")
    return version

def parsePackage (body : Bytes) : Except CatalogError ParsedPackage := do
  let files ← unpack formats body
  let some wasm := files.lookup "module.wasm" | throw (.invalidWasm "module.wasm is missing")
  validateWasm wasm
  let some manifestBytes := files.lookup "skill.toml" | throw (invalidArchive "skill.toml is required")
  let manifestToml ← textOf "skill.toml is not utf-8" manifestBytes
  let paramsSchemaJson ← requireJsonText formats files "schema/params.json"
  let outputSchemaJson ← optionalJsonText formats files "schema/output.json"
  let manifest ← ((formats.toml manifestToml).bind ManifestToml.decode).mapError
    fun err => .invalidManifest ("skill.toml: " ++ err)
  let version ← checkManifest formats manifest
  let declared ← declaredFiles normalizeRelStr
    (fun path => invalidArchive ("duplicate [files] entry: " ++ path)) manifest.files
  verifyFiles formats files declared
  let capabilities ← validateCapabilities manifest.capabilities
  let grants := capabilities.map (·.grant)
  let displayName := (trimmed manifest.displayName).getD manifest.name
  let publisher := trimmed manifest.publisher
  let minNodeVersion := trimmed manifest.minNodeVersion
  checkTexts displayName publisher minNodeVersion manifest.platforms
  return {
    name := manifest.name
    version := version.text
    semverMajor := version.major
    semverMinor := version.minor
    semverPatch := version.patch
    prerelease := if version.pre = "" then none else some version.pre
    displayName
    description := manifest.description.getD ""
    publisher
    platforms := manifest.platforms
    minNodeVersion
    manifestToml
    paramsSchemaJson
    outputSchemaJson
    files := declared
    capabilities
    capabilitiesSha256 :=
      formats.sha256 (utf8 (formats.json.print (.arr (grants.map .str))).toList)
    lintWarnings := collectLintWarnings capabilities
    signatureStatus := "none"
    sha256 := formats.sha256 body
    sizeBytes := body.length }

/-- The size is checked before the archive is parsed. -/
def acceptUpload (body : Bytes) : Except CatalogError ParsedPackage :=
  if body.length > packageMax then .error .packageTooLarge else parsePackage formats body

end Novbot.Catalog
