import Novbot.Pack.Manifest
import Mathlib.Data.List.Sort

/-!
# Packing a project

`archive.rs` and `pack` of `project.rs` in `novbot-skill`: the files of a project become a gzip
compressed tar archive, and `skill.toml` is written again with their hashes.

The writer of archives is a library and a parameter of the model, as its reader is.  A project is
what is found under the paths that `pack` uses, and no two of them are the same file.
-/

namespace Novbot.Pack

open Novbot.Package Text

/-! ## The archive -/

structure Header where
  kind : EntryType
  mode : Nat
  size : Nat
  mtime : Nat
  uid : Nat
  gid : Nat
  deriving DecidableEq, Repr

/-- An entry as it is handed to the writer. -/
structure Member where
  header : Header
  path : String
  data : Bytes
  deriving DecidableEq, Repr

def appendDir (path : String) : Member := ⟨⟨.directory, 0o755, 0, 0, 0, 0⟩, path, []⟩

def appendFile (path : String) (data : Bytes) : Member :=
  ⟨⟨.regular, 0o644, data.length, 0, 0, 0⟩, path, data⟩

def inSchema (path : String) : Bool := "schema/".toList.isPrefixOf path.toList

/-- The entries of a package, by their names. -/
def members (manifest : String) (files : SortedMap String Bytes) : List Member :=
  (appendFile "skill.toml" (utf8 manifest.toList) ::
    ((if files.keys.any inSchema then [appendDir "schema"] else []) ++
      files.entries.map fun file => appendFile file.1 file.2)).insertionSort
    fun left right => left.path ≤ right.path

/-- The libraries that read and write. -/
structure Libraries where
  formats : Formats
  /-- A compressed archive of the entries. -/
  write : List Member → Except String Bytes

/-! ## The project -/

inductive FileKind where
  | file
  | directory
  | symlink
  | other
  deriving DecidableEq, Repr

/-- What stands at a path, and what is read through it. -/
structure Found where
  kind : FileKind
  data : Except String Bytes

structure Project where
  files : String → Option Found
  writes : String → Except String Unit

def Project.read (project : Project) (path : String) : Except String Bytes :=
  match project.files path with
  | some found => found.data.mapError fun _ => "read " ++ path
  | none => .error ("read " ++ path)

/-- The project after a write, which goes through a link. -/
def Project.put (project : Project) (path : String) (data : Bytes) : Project :=
  { project with
    files := fun other =>
      if other = path then some ⟨((project.files path).map (·.kind)).getD .file, .ok data⟩
      else project.files other }

def Project.write (project : Project) (path : String) (data : Bytes) :
    Except String Unit × Project :=
  match project.writes path with
  | .error _ => (.error ("write " ++ path), project)
  | .ok () => (.ok (), project.put path data)

def modulePath : String := "target/wasm32-wasip2/release/module.wasm"

def wasmMagic : Bytes := [0x00, 0x61, 0x73, 0x6D]

structure Packed where
  name : String
  version : String
  sha256 : String
  deriving DecidableEq, Repr

section
variable (libraries : Libraries)

def loadFile (project : Project) : Except String String := do
  let bytes ← project.read "skill.toml"
  match fromUtf8 bytes with
  | some text => return .ofList text
  | none => throw "read skill.toml"

def checkJson (path : String) (bytes : Bytes) : Except String Unit :=
  match (fromUtf8 bytes).bind fun text => libraries.formats.json.parse (.ofList text) with
  | some _ => .ok ()
  | none => .error (path ++ " is not json")

def readJsonFile (project : Project) (path : String) : Except String Bytes := do
  let bytes ← project.read path
  checkJson libraries path bytes
  return bytes

def isJson (path : String) : Bool := ".json".toList.isSuffixOf path.toList

/-- An optional file is packed if it is there. -/
def addOptional (project : Project) (files : SortedMap String Bytes) (path : String) :
    Except String (SortedMap String Bytes) :=
  match project.files path with
  | none => .ok files
  | some found =>
    match found.kind with
    | .symlink => .error (path ++ " is a symlink")
    | .file => do
      let bytes ← project.read path
      if isJson path then checkJson libraries path bytes
      return files.insert path bytes
    | _ => .ok files

/-- The files of a package but the manifest. -/
def contents (project : Project) : Except String (SortedMap String Bytes) := do
  let wasm ← project.read modulePath
  if !wasmMagic.isPrefixOf wasm then throw "module.wasm is not a wasm binary"
  let params ← readJsonFile libraries project "schema/params.json"
  ["schema/output.json", "README.md", "LICENSE"].foldlM (addOptional libraries project)
    (SortedMap.ofList [("module.wasm", wasm), ("schema/params.json", params)])

def checkNames (manifest : Manifest) : Except String Unit :=
  if '/' ∈ manifest.name.toList ∨ '/' ∈ manifest.version.toList ∨ '\\' ∈ manifest.version.toList then
    .error "name or version is not a safe file name"
  else .ok ()

/-- What `pack` reads: the manifest and the files. -/
def gather (project : Project) : Except String (Manifest × SortedMap String Bytes) := do
  let text ← loadFile project
  let manifest ← parse libraries.formats text
  checkNames manifest
  return (manifest, ← contents libraries project)

def hashes (files : SortedMap String Bytes) : SortedMap String String :=
  files.map fun _ data => libraries.formats.sha256 data

/-- `skill.toml` as it is written. -/
def rendered (manifest : Manifest) (files : SortedMap String Bytes) : String :=
  render manifest (hashes libraries files)

def fileName (manifest : Manifest) : String :=
  manifest.name ++ "-" ++ manifest.version ++ ".nbskill"

def pack (project : Project) : Except String Packed × Project :=
  match gather libraries project with
  | .error err => (.error err, project)
  | .ok (manifest, files) =>
    match project.write "skill.toml" (utf8 (rendered libraries manifest files).toList) with
    | (.error err, project) => (.error err, project)
    | (.ok (), project) =>
      match libraries.write (members (rendered libraries manifest files) files) with
      | .error _ => (.error "pack archive", project)
      | .ok bytes =>
        match project.write (fileName manifest) bytes with
        | (.error err, project) => (.error err, project)
        | (.ok (), project) =>
          match project.write (fileName manifest ++ ".sha256")
              (utf8 (libraries.formats.sha256 bytes ++ "\n").toList) with
          | (.error err, project) => (.error err, project)
          | (.ok (), project) =>
            (.ok ⟨manifest.name, manifest.version, libraries.formats.sha256 bytes⟩, project)

end

end Novbot.Pack
