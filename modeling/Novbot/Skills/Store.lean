import Novbot.Skills.Fetch

/-!
# The store of a node

The files under `skills/`: a store directory for each installed package, by its
hash, the compiled modules, the partial downloads, what was quarantined, and
`state.json`.  A store directory counts when its `.verified` marker names its hash.
-/

namespace Novbot.Skills

open Novbot.Package Text

/-- The files of a directory, by relative path. -/
abbrev Directory := SortedMap String Bytes

structure DiskSkill where
  sha256 : String
  version : String
  previous : List String
  deriving DecidableEq, Repr

structure DiskState where
  generation : Int
  skills : SortedMap String DiskSkill
  deriving DecidableEq

structure Disk where
  store : SortedMap String Directory
  cache : SortedMap String Bytes
  downloads : SortedMap String Bytes
  quarantine : SortedMap String Directory
  /-- What `state.json` is read as, if it is there and can be read. -/
  state : Option DiskState

def Disk.empty : Disk := ⟨.empty, .empty, .empty, .empty, none⟩

/-- What a node runs with. -/
structure Setup where
  formats : Formats
  limits : InstallLimits
  /-- `compile_cwasm`. -/
  compile : Bytes → Except String Bytes
  engineId : String
  platform : String

variable (formats : Formats)

/-! ## Markers -/

def markerPath : String := ".verified"

def envelopePath : String := "signature.envelope"

def marker (name sha256 version : String) : Json :=
  .obj [("name", .str name), ("sha256", .str sha256), ("version", .str version)]

def markerBytes (skill : DesiredSkill) : Bytes :=
  utf8 (formats.json.print (marker skill.name skill.sha256 skill.version)).toList

/-- The hash that the marker of a directory names. -/
def markerSha (dir : Directory) : Option String := do
  let text ← fromUtf8 (← dir.lookup markerPath)
  let value ← formats.json.parse (.ofList text)
  (← value.get "sha256").asStr

def storeVerified (store : SortedMap String Directory) (sha256 : String) : Bool :=
  (store.lookup sha256).any fun dir => markerSha formats dir == some sha256

theorem storeVerified_iff {store : SortedMap String Directory} {sha256 : String} :
    storeVerified formats store sha256 = true ↔
      ∃ dir, store.lookup sha256 = some dir ∧ markerSha formats dir = some sha256 := by
  unfold storeVerified
  cases store.lookup sha256 with
  | none => simp
  | some dir => simp

/-! ## Room -/

def dirSize (store : SortedMap String Directory) : Nat :=
  store.entries.foldl (fun size (_, dir) =>
    dir.entries.foldl (fun size (_, data) => size + data.length) size) 0

def storeHasRoom (store : SortedMap String Directory) (sha256 : String) (adding quota : Nat) : Bool :=
  storeVerified formats store sha256 || dirSize store + adding ≤ quota

/-! ## Directories -/

/-- Removes a store directory.  A removal that fails leaves some of its files. -/
def removeStore (left : Option (String → Bool)) (sha256 : String)
    (store : SortedMap String Directory) : SortedMap String Directory :=
  match left, store.lookup sha256 with
  | some keep, some dir => store.insert sha256 (dir.filter fun path _ => keep path)
  | _, _ => store.filter fun name _ => name ≠ sha256

/-- The files of a package in the store. -/
def sealedFiles (skill : DesiredSkill) (package : Package) : Directory :=
  let files :=
    if skill.signatureEnvelope = [] then package.files
    else package.files.insert envelopePath skill.signatureEnvelope
  files.insert markerPath (markerBytes formats skill)

/-- A file is in the place of a directory of another one. -/
def conflicting (dir : Directory) : Bool :=
  dir.keys.any fun path => dir.keys.any fun other => (path.toList ++ ['/']).isPrefixOf other.toList

variable (attempt : Attempt) (skill : DesiredSkill)

/-- The files are written to a staging directory, which replaces what is in the store. -/
def sealStore (package : Package) (store : SortedMap String Directory) :
    Except InstallError Unit × SortedMap String Directory :=
  let dir := sealedFiles formats skill package
  match attempt.io .staging with
  | some err => (.error (archiveError ("staging: " ++ err)), store)
  | none =>
    if conflicting dir then (.error (archiveError "write: not a directory"), store)
    else
      let store := removeStore (attempt.left .stale skill.sha256) skill.sha256 store
      match attempt.io .rename with
      | some err => (.error (archiveError ("store rename: " ++ err)), store)
      | none =>
        if (store.lookup skill.sha256).any fun dir => dir.entries ≠ [] then
          (.error (archiveError "store rename: directory not empty"), store)
        else
          let store := store.insert skill.sha256 dir
          match attempt.io .chmod with
          | some err =>
            (.error (archiveError ("chmod: " ++ err)),
              removeStore (attempt.left .unsealed skill.sha256) skill.sha256 store)
          | none => (.ok (), store)

/-! ## Verification -/

def tampered (detail : String) : InstallError := ⟨.storeTampered, detail⟩

/-- `read_to_string`. -/
def readText (dir : Directory) (path : String) : Option String :=
  (dir.lookup path).bind fun bytes => (fromUtf8 bytes).map .ofList

/-- The module of an active skill is the one of its manifest. -/
def verifyActive (store : SortedMap String Directory) (sha256 : String) : Except InstallError Unit :=
  match storeVerified formats store sha256, store.lookup sha256 with
  | true, some dir => do
    let some text := readText dir "skill.toml" | throw (tampered "skill.toml is missing")
    let expected ← moduleHashFromToml formats text
    let some wasm := dir.lookup "module.wasm" | throw (tampered "module.wasm is missing")
    if formats.sha256 wasm ≠ expected then
      throw (tampered "module.wasm does not match the manifest hash")
  | _, _ => .error (tampered "verified marker is missing")

/-- The fields that `read_stored_manifest` reads. -/
def storedLimits : Toml.Decoder LimitsToml := fun value => do
  let get ← Toml.fields ["runtime"] value
  Toml.orDefault get "runtime" (fun runtime => do
    let get ← Toml.fields ["limits"] runtime
    Toml.orDefault get "limits" LimitsToml.decode ⟨none, none⟩) ⟨none, none⟩

def readStoredManifest (dir : Directory) : Except InstallError LimitsToml :=
  match attempt.io .readToml, readText dir "skill.toml" with
  | none, some text =>
    ((formats.toml text).bind storedLimits).mapError fun err => manifestError ("skill.toml: " ++ err)
  | some err, _ => .error (manifestError ("read skill.toml: " ++ err))
  | _, none => .error (manifestError "read skill.toml: not found")

/-! ## Quarantine -/

/-- Moves a store directory away.  A second one of its name gets a stamp. -/
def quarantineStore (stamp sha256 : String) (disk : Disk) : Except String Disk :=
  match disk.store.lookup sha256 with
  | none => .ok disk
  | some dir =>
    let name := if disk.quarantine.contains sha256 then sha256 ++ "-" ++ stamp else sha256
    if disk.quarantine.contains name then .error "quarantine: directory not empty"
    else .ok { disk with
      store := disk.store.filter fun path _ => path ≠ sha256
      quarantine := disk.quarantine.insert name dir }

/-! ## Previous versions -/

/-- The versions that are kept, and those that are dropped. -/
def trimPrevious (previous : List String) (keep : Nat) : List String × List String :=
  previous.splitAt keep

end Novbot.Skills
