import Novbot.Lib.Text
import Novbot.Lib.Toml
import Novbot.Lib.Json
import Mathlib.Data.List.SplitOn

/-!
# The `.nbskill` format

What the center and the node both do with the bytes of a package: they unpack a
gzip-compressed tar archive under limits, and compare the files with the hashes
of the manifest.  Each side has its own rules for entries and its own errors,
which are parameters here (`UnpackRules`, `verifyHashes`).

Decompression and the tar reader, the TOML and JSON readers, SHA-256 and the
semver parser are libraries, and parameters of the model (`Formats`).
-/

namespace Novbot.Package

abbrev Bytes := List UInt8

/-! ## Formats -/

inductive EntryType where
  | regular
  | continuous
  | directory
  | symlink
  | link
  | block
  | char
  | fifo
  | other
  deriving DecidableEq, Repr

/-- An entry of a tar archive.  Its parts are read one after the other, and each
may be unreadable. -/
structure Entry where
  kind : EntryType
  path : Except String Bytes
  size : Except String Nat
  data : Except String Bytes

structure Semver where
  major : Nat
  minor : Nat
  patch : Nat
  pre : String
  /-- The version as it is printed. -/
  text : String
  deriving DecidableEq, Repr

structure Formats where
  /-- The entries of a compressed archive, up to the first that cannot be read. -/
  archive : Bytes → Except String (List (Except String Entry))
  toml : String → Except String Toml
  json : Json.Codec
  /-- `sha256_hex`. -/
  sha256 : Bytes → String
  semver : String → Option Semver

/-- What the readers of documents and versions guarantee. -/
structure Formats.Laws (formats : Formats) : Prop where
  /-- A document is a table. -/
  document : ∀ text doc, formats.toml text = .ok doc → ∃ members, doc = .table members
  /-- A version is printed as it was read, and none is blank. -/
  version : ∀ text version, formats.semver text = some version →
    version.text = text ∧ Text.trim text.toList ≠ []

def packageMax : Nat := 16 * 1024 * 1024

def extractMax : Nat := 32 * 1024 * 1024

def wasmMax : Nat := 12 * 1024 * 1024

def entryMax : Nat := 256

def abi : String := "novbot:skill@1"

variable {ε : Type}

/-! ## Paths -/

def isSlash (b : UInt8) : Bool := b = 0x2F

/-- One component of a path. -/
def normalPart (fail : String → ε) (part : Bytes) : Except ε (List Char) :=
  if part = [0x2E, 0x2E] then .error (fail "archive path contains '..'")
  else
    match Text.fromUtf8 part with
    | none => .error (fail "archive path is not utf-8")
    | some text =>
      if text.contains '\\' || text.contains '\x00' then .error (fail "archive path is invalid")
      else .ok text

/-- `normalize_rel`: the components of a relative path, without `.`. -/
def normalizeRel (fail : String → ε) (path : Bytes) : Except ε String := do
  if path.isEmpty || path.head?.any isSlash then
    throw (fail "archive path is absolute or empty")
  let components := (path.splitOnP isSlash).filter fun part => part ≠ [] ∧ part ≠ [0x2E]
  let parts ← components.mapM (normalPart fail)
  if parts.isEmpty then throw (fail "archive path is empty")
  return String.ofList (List.intercalate ['/'] parts)

/-! ## Unpacking -/

/-- What differs between the two sides. -/
structure UnpackRules (ε : Type) where
  fail : String → ε
  /-- Kinds of entries that are files. -/
  plain : EntryType → Bool
  checkDirectory : String → Except ε Unit
  checkFile : String → Except ε Unit

variable (rules : UnpackRules ε)

/-- True for a directory, false for a file. -/
def UnpackRules.isDirectory (kind : EntryType) : Except ε Bool :=
  if rules.plain kind then .ok false
  else
    match kind with
    | .directory => .ok true
    | .symlink | .link => .error (rules.fail "archive contains a symbolic link or hard link")
    | .block | .char | .fifo => .error (rules.fail "archive contains a device or fifo entry")
    | _ => .error (rules.fail "archive contains an unsupported entry")

/-- The loop over the entries, with the entries, the bytes and the files so far. -/
def unpackEntries : List (Except String Entry) → Nat → Nat → SortedMap String Bytes →
    Except ε (SortedMap String Bytes)
  | [], _, _, files => .ok files
  | entry :: entries, count, total, files => do
    let entry ← entry.mapError fun err => rules.fail ("archive entry: " ++ err)
    if count + 1 > entryMax then throw (rules.fail "archive has more than 256 entries")
    let directory ← rules.isDirectory entry.kind
    let raw ← entry.path.mapError fun err => rules.fail ("archive path: " ++ err)
    let path ← normalizeRel rules.fail raw
    if directory then
      rules.checkDirectory path
      unpackEntries entries (count + 1) total files
    else
      rules.checkFile path
      let declared ← entry.size.mapError fun err => rules.fail ("entry size: " ++ err)
      if path = "module.wasm" ∧ declared > wasmMax then
        throw (rules.fail "module.wasm exceeds 12 MiB")
      if declared > extractMax ∨ total + declared > extractMax then
        throw (rules.fail "extracted archive exceeds 32 MiB")
      let data ← entry.data.mapError fun err => rules.fail ("read entry: " ++ err)
      if path = "module.wasm" ∧ data.length > wasmMax then
        throw (rules.fail "module.wasm exceeds 12 MiB")
      if total + data.length > extractMax then
        throw (rules.fail "extracted archive exceeds 32 MiB")
      if files.contains path then throw (rules.fail ("duplicate archive entry: " ++ path))
      unpackEntries entries (count + 1) (total + data.length) (files.insert path data)

def unpackWith (formats : Formats) (bytes : Bytes) : Except ε (SortedMap String Bytes) := do
  let entries ← (formats.archive bytes).mapError fun err => rules.fail ("archive: " ++ err)
  unpackEntries rules entries 0 0 .empty

/-! ## File hashes -/

def isLowerHex64 (value : String) : Bool :=
  value.toList.length = 64 && value.toList.all fun c => Text.isAsciiDigit c || ('a' ≤ c && c ≤ 'f')

/-- One declared hash. -/
def verifyHash (sha256 : Bytes → String) (archiveError manifestError : String → ε)
    (files : SortedMap String Bytes) (path hash : String) : Except ε Unit :=
  if !isLowerHex64 hash then
    .error (manifestError ("file hash must be lowercase sha256 hex: " ++ path))
  else
    match files.lookup path with
    | none => .error (archiveError ("[files] entry is not in the archive: " ++ path))
    | some data =>
      if sha256 data ≠ hash then .error (archiveError ("file hash mismatch: " ++ path))
      else .ok ()

/-- Every declared hash is right, and every file but the manifest is declared. -/
def verifyHashes (sha256 : Bytes → String) (archiveError manifestError : String → ε)
    (files : SortedMap String Bytes) (declared : SortedMap String String) : Except ε Unit := do
  declared.entries.forM fun (path, hash) =>
    verifyHash sha256 archiveError manifestError files path hash
  let remaining := files.keys.filter fun path => path ≠ "skill.toml" && !declared.contains path
  if remaining ≠ [] then
    throw (archiveError ("archive entries missing from [files]: " ++ ", ".intercalate remaining))

/-- `[files]` with normalized paths, each once. -/
def declaredFiles (normalize : String → Except ε String) (duplicate : String → ε)
    (files : SortedMap String String) : Except ε (SortedMap String String) :=
  files.entries.foldlM (fun declared (path, hash) => do
    let normalized ← normalize path
    if declared.contains normalized then throw (duplicate path)
    return declared.insert normalized hash) .empty

end Novbot.Package
